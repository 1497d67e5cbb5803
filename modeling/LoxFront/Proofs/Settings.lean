/-
  LoxFront.Proofs.Settings — what the terminal, the listing and standard error change of a
  run, and what they leave.

  Each acts on one place only. Every setting shows the same transcript, so the terminal and
  the editor change the prompts and what stands around a batch or a message, and the listing
  what stands in front of a token. How far a run comes depends on no listing
  (`runLines_listing`), whatever standard error takes. One that takes nothing cuts a session
  short behind the summary of its first line with errors (`printed_refused`), and cuts no
  file.
-/

import LoxFront.Proofs.Transcript

namespace LoxFront.Command

variable {setting setting' : Setting} {input : List UInt8} {lines : List (List UInt8)}

/-! ## The listing -/

/-- A session comes as far in either listing, with the same on standard error. -/
theorem runLines_listing (hreads : setting.editor.ReadsLines) (hlines : IsLines input lines) {log : Log}
    (hlog : log.entries = []) (err : Sink) :
    ∃ shown stderr code, shown <+: sessionItems lines ∧ ∀ listing,
      runLines { setting with listing := listing } input log err =
        ⟨Setting.printed { setting with listing := listing } shown, stderr, code⟩ := by
  have hreads' : ∀ listing, (Setting.editor { setting with listing := listing }).ReadsLines := fun _ => hreads
  induction lines generalizing input log err with
  | nil =>
    obtain rfl : input = [] := hlines.whole.symm
    refine ⟨sessionItems [], err, 0, List.prefix_rfl, ?_⟩
    intro listing
    rw [runLines_nil (hreads' listing)]
    rfl
  | cons line lines ih =>
    obtain ⟨rfl, hfirst, hrest⟩ := isLines_cons_iff.mp hlines
    by_cases h : isText line
    · obtain ⟨source, rfl⟩ := isText_iff.mp h
      have hdrained : (log.recordScan (scan source)).drain.entries = [] := rfl
      rw [sessionItems_text]
      cases hshow : setting.terminal.showLog (scan source).log err with
      | error t =>
        refine ⟨.prompt :: Item.listed sessionName (scan source), (fail setting.terminal .unknown t).stderr, 70, ?_, ?_⟩
        · exact (List.prefix_cons_inj _).mpr (List.prefix_append _ _)
        · intro listing
          rw [runLines_text (hreads' listing) hlog hfirst, hshow, Setting.printed_prompt, Setting.printed_listed]
          simp [Outcome.behind, proceed, fail, Failure.exitCode]
      | ok t =>
        obtain ⟨shown, stderr, code, hprefix, hmore⟩ := ih hrest hdrained t
        refine ⟨.prompt :: (Item.listed sessionName (scan source) ++ (Item.complaints (scan source) ++ shown)), stderr, code,
          ?_, ?_⟩
        · simpa using hprefix
        · intro listing
          rw [runLines_text (hreads' listing) hlog hfirst, hshow, proceed, hmore, Setting.printed_prompt,
            Setting.printed_append, Setting.printed_append, Setting.printed_listed, Setting.printed_complaints]
          rfl
    · let o := proceed setting.terminal (setting.terminal.showMessage unreadableInput err) succeed
      have hstdout : o.stdout = [] := by
        show (proceed setting.terminal (setting.terminal.showMessage unreadableInput err) succeed).stdout = []
        cases setting.terminal.showMessage unreadableInput err <;> rfl
      refine ⟨sessionItems (line :: lines), o.stderr, o.exitCode, List.prefix_rfl, ?_⟩
      intro listing
      rw [runLines_notText (hreads' listing) hfirst h, sessionItems_notText h, Outcome.behind, Setting.printed_prompt]
      show Outcome.mk (_ ++ o.stdout) _ _ = _
      rw [hstdout]
      rfl

theorem perform_listing (hreads : setting.editor.ReadsLines) (arguments : List Text) (reader : Reader)
    (hlines : IsLines input lines) (err : Sink) :
    ∃ shown stderr code, shown <+: textItems arguments reader lines ∧ ∀ listing,
      perform { setting with listing := listing } arguments reader input err =
        ⟨Setting.printed { setting with listing := listing } shown, stderr, code⟩ := by
  match arguments with
  | [] =>
    have hempty : Log.empty.entries = [] := rfl
    obtain ⟨shown, stderr, code, hprefix, hsession⟩ := runLines_listing hreads hlines hempty err
    refine ⟨.text banner :: shown, stderr, code, (List.prefix_cons_inj _).mpr hprefix, ?_⟩
    intro listing
    rw [perform, hsession]
    rfl
  | [path] =>
    obtain ⟨stderr, code, hfile⟩ := runFile_listing setting reader path err
    exact ⟨fileItems reader path, stderr, code, List.prefix_rfl, hfile⟩
  | _ :: _ :: _ =>
    refine ⟨[.text usage], err, usageExitCode, List.prefix_rfl, ?_⟩
    intro listing
    show Outcome.mk usage err usageExitCode = ⟨usage ++ [], err, usageExitCode⟩
    rw [List.append_nil]

theorem run_listing (hreads : setting.editor.ReadsLines) (arguments : List (List UInt8)) (reader : Reader)
    (hlines : IsLines input lines) (err : Sink) :
    ∃ shown stderr code, shown <+: transcript arguments reader lines ∧ ∀ listing,
      run { setting with listing := listing } arguments reader input err =
        ⟨Setting.printed { setting with listing := listing } shown, stderr, code⟩ := by
  rcases texts_or_not arguments with ⟨texts, rfl⟩ | h
  · simp only [run_texts, transcript_texts]
    exact perform_listing hreads texts reader hlines err
  · rw [transcript_notText h]
    refine ⟨[.panic arguments], (panic setting arguments err).stderr, panicExitCode, List.prefix_rfl, ?_⟩
    intro listing
    rw [run_notText _ h]
    rfl

/-! ## The terminal and the editor -/

/-- No prompt is shown but in a session. -/
theorem stdout_files {arguments : List (List UInt8)} (h : arguments ≠ []) (reader : Reader) (input : List UInt8)
    (hlisting : setting.listing = setting'.listing) (err err' : Sink) :
    (run setting arguments reader input err).stdout = (run setting' arguments reader input err').stdout := by
  rcases texts_or_not arguments with ⟨texts, rfl⟩ | hnot
  · rw [run_texts, run_texts]
    match texts with
    | [] => exact absurd rfl h
    | [path] =>
      rw [perform, perform, stdout_runFile, stdout_runFile]
      unfold fileItems
      split
      · rw [setting.printed_append, setting'.printed_append, setting.printed_listed, setting'.printed_listed,
          setting.printed_complaints, setting'.printed_complaints, listed, listed, hlisting]
      · rfl
    | _ :: _ :: _ => rfl
  · rw [run_notText _ hnot, run_notText _ hnot]
    rfl

theorem exitCode_setting (hreads : setting.editor.ReadsLines) (hreads' : setting'.editor.ReadsLines)
    (arguments : List (List UInt8)) (reader : Reader) (hlines : IsLines input lines) (accepts : Bool) :
    exitCode setting reader input accepts arguments = exitCode setting' reader input accepts arguments := by
  rcases texts_or_not arguments with ⟨texts, rfl⟩ | hnot
  · match texts with
    | [] =>
      obtain ⟨hfails, hends⟩ := exitCode_session reader accepts hreads hlines
      obtain ⟨hfails', hends'⟩ := exitCode_session reader accepts hreads' hlines
      by_cases h : accepts = false ∧ Complains lines
      · exact (hfails.mpr h).trans (hfails'.mpr h).symm
      · exact (hends.mpr h).trans (hends'.mpr h).symm
    | [path] =>
      rw [exitCode_texts, exitCode_texts, perform, perform]
      by_cases h : ∃ source : Text, reader path = .ok source.utf8
      · obtain ⟨source, hsource⟩ := h
        rw [exitCode_runFile_text setting hsource, exitCode_runFile_text setting' hsource]
      · rw [exitCode_runFile_notText setting h, exitCode_runFile_notText setting' h]
    | _ :: _ :: _ =>
      rw [exitCode_texts, exitCode_texts]
      rfl
  · rw [exitCode, exitCode, run_notText _ hnot, run_notText _ hnot]
    rfl

/-! ## A standard error that takes nothing -/

theorem summary_suffix (setting : Setting) (name : Text) (s : Scan) :
    outputLine (Listing.summary s.tokens.length s.errors.length) <:+ listed setting name s := by
  rw [listed, Listing.report_eq]
  exact List.suffix_append _ _

/-- Lines without errors are shown, and the first one with errors ends the session. -/
theorem printed_refused (setting : Setting) (before : List Text) (hbefore : ∀ s ∈ before, (scan s).errors = [])
    {source : Text} (hsource : (scan source).errors ≠ []) (after : List (List UInt8)) :
    setting.printed (heard false (sessionItems (before.map Text.utf8 ++ source.utf8 :: after))) =
      (before ++ [source]).flatMap fun s => setting.editor.prompted prompt ++ listed setting sessionName (scan s) := by
  induction before with
  | nil =>
    rw [List.map_nil, List.nil_append, printed_heard_text, if_neg (by simp [hsource])]
    simp
  | cons s before ih =>
    obtain ⟨hs, hbefore⟩ := List.forall_mem_cons.mp hbefore
    rw [List.map_cons, List.cons_append, printed_heard_text, if_pos (.inr hs), ih hbefore, List.cons_append,
      List.flatMap_cons, List.append_assoc]

/-- A line that is not text has nothing behind its message. -/
theorem printed_clean (setting : Setting) (lines : List (List UInt8))
    (h : ∀ source : Text, source.utf8 ∈ textLines lines → (scan source).errors = []) :
    setting.printed (heard false (sessionItems lines)) = setting.printed (sessionItems lines) := by
  induction lines with
  | nil => rfl
  | cons line lines ih =>
    by_cases hline : isText line
    · obtain ⟨source, rfl⟩ := isText_iff.mp hline
      rw [textLines, List.takeWhile_cons_of_pos hline] at h
      have hsource := h source List.mem_cons_self
      have hwhole := printed_heard_text setting true source lines
      rw [if_pos (.inl rfl)] at hwhole
      rw [printed_heard_text, if_pos (.inr hsource), ih fun s hs => h s (List.mem_cons_of_mem _ hs)]
      exact hwhole.symm
    · rw [sessionItems_notText hline]
      rfl

/-! ## Every run -/

/-- What a run is set to, and what its standard error does, changes nothing else. -/
structure Undisturbed (arguments : List (List UInt8)) (reader : Reader) (input : List UInt8) (lines : List (List UInt8)) :
    Prop where
  /-- Every setting shows the one transcript on either output, if standard error takes it. -/
  shown : ∀ setting : Setting, setting.editor.ReadsLines →
    (run setting arguments reader input .unlimited).stdout = setting.printed (transcript arguments reader lines) ∧
      (run setting arguments reader input .unlimited).stderr.received = setting.noticed (transcript arguments reader lines)
  /-- On a dumb terminal a prompt stands in its place, and nothing around a batch or a message. -/
  dumb : ∀ setting : Setting, setting.IsDumb →
    (run setting arguments reader input .unlimited).stdout =
        (transcript arguments reader lines).flatMap (Item.onStdout "> ".toList setting.listing.heading setting.listing.label) ∧
      (run setting arguments reader input .unlimited).stderr.received =
        (transcript arguments reader lines).flatMap (Item.onStderr [] [] [] setting.panicReport)
  /-- On an xterm there is no prompt, and there are control sequences around each batch and
      each message. -/
  xterm : ∀ setting : Setting, setting.IsXterm →
    (run setting arguments reader input .unlimited).stdout =
        (transcript arguments reader lines).flatMap (Item.onStdout [] setting.listing.heading setting.listing.label) ∧
      (run setting arguments reader input .unlimited).stderr.received =
        (transcript arguments reader lines).flatMap
          (Item.onStderr (Text.utf8 "\x1b[0m\x1b[31m".toList) (Text.utf8 "\x1b[0m\x1b[1m\x1b[31m".toList)
            (Text.utf8 "\x1b[0m".toList) setting.panicReport)
  code : ∀ setting setting' : Setting, setting.editor.ReadsLines → setting'.editor.ReadsLines → ∀ accepts,
    exitCode setting reader input accepts arguments = exitCode setting' reader input accepts arguments
  /-- Outside of a session standard output depends on the listing only. -/
  files : arguments ≠ [] → ∀ setting setting' : Setting, setting.listing = setting'.listing → ∀ err err',
    (run setting arguments reader input err).stdout = (run setting' arguments reader input err').stdout
  /-- The listing changes what stands in front of the tokens, and in front of each of them,
      and nothing else, even where standard error fails in the middle of a run. -/
  listing : ∀ setting : Setting, setting.editor.ReadsLines → ∀ err, ∃ shown stderr code,
    shown <+: transcript arguments reader lines ∧
      run { setting with listing := .bare } arguments reader input err =
        ⟨shown.flatMap (Item.onStdout (setting.editor.prompted prompt) (fun _ => []) fun _ _ => []), stderr, code⟩ ∧
      run { setting with listing := .numbered } arguments reader input err =
        ⟨shown.flatMap
            (Item.onStdout (setting.editor.prompted prompt)
              (fun name => outputLine ("== ".toList ++ name ++ " ==".toList))
              fun index t => zeroPadded 4 (numeral index) ++ " #".toList ++ zeroPadded 4 (numeral t.line) ++ [' ']),
          stderr, code⟩
  /-- A standard error that takes nothing cuts standard output short at most. -/
  refused : ∀ setting : Setting, setting.editor.ReadsLines →
    (run setting arguments reader input (.limited 0)).stdout <+: (run setting arguments reader input .unlimited).stdout ∧
      (run setting arguments reader input (.limited 0)).stderr.received = []
  /-- It does so behind the summary of a session's first line with errors, which comes last. -/
  refusedErrors : arguments = [] → ∀ setting : Setting, setting.editor.ReadsLines → ∀ (before : List Text) (source : Text) after,
    lines = before.map Text.utf8 ++ source.utf8 :: after →
      (∀ s ∈ before, (scan s).errors = []) → (scan source).errors ≠ [] →
        (run setting arguments reader input (.limited 0)).stdout =
            banner ++ ((before ++ [source]).flatMap fun s =>
              setting.editor.prompted prompt ++ listed setting sessionName (scan s)) ∧
          outputLine ("# ".toList ++ numeral (scan source).tokens.length ++ " tokens, ".toList ++
              numeral (scan source).errors.length ++ " errors".toList) <:+
            (run setting arguments reader input (.limited 0)).stdout
  /-- Without such a line nothing is cut: what answers a line that is not text comes last. -/
  refusedClean : arguments = [] → (∀ source : Text, source.utf8 ∈ textLines lines → (scan source).errors = []) →
    ∀ setting : Setting, setting.editor.ReadsLines →
      (run setting arguments reader input (.limited 0)).stdout = (run setting arguments reader input .unlimited).stdout

theorem undisturbed_run (arguments : List (List UInt8)) (reader : Reader) (hlines : IsLines input lines) :
    Undisturbed arguments reader input lines where
  shown setting hreads := run_heard hreads arguments reader hlines true
  dumb setting h := by
    obtain ⟨hstdout, hstderr⟩ := run_heard h.reads arguments reader hlines true
    rw [Setting.printed, h.prompted] at hstdout
    rw [if_pos rfl, Setting.noticed, h.start, h.start, h.reset] at hstderr
    exact ⟨hstdout, hstderr⟩
  xterm setting h := by
    obtain ⟨hstdout, hstderr⟩ := run_heard h.reads arguments reader hlines true
    rw [Setting.printed, h.prompted] at hstdout
    rw [if_pos rfl, Setting.noticed, h.red, h.boldRed, h.reset] at hstderr
    exact ⟨hstdout, hstderr⟩
  code setting setting' hreads hreads' accepts := exitCode_setting hreads hreads' arguments reader hlines accepts
  files h setting setting' hlisting err err' := stdout_files h reader input hlisting err err'
  listing setting hreads err := by
    obtain ⟨shown, stderr, code, hprefix, hshown⟩ := run_listing hreads arguments reader hlines err
    exact ⟨shown, stderr, code, hprefix, hshown .bare, hshown .numbered⟩
  refused setting hreads := by
    obtain ⟨hstdout, hreceived⟩ := run_heard hreads arguments reader hlines false
    obtain ⟨hwhole, -⟩ := run_heard hreads arguments reader hlines true
    refine ⟨?_, hreceived⟩
    obtain ⟨rest, hrest⟩ := List.takeWhile_prefix (!·.isNotice) (l := transcript arguments reader lines)
    show (run setting arguments reader input (errorSink false)).stdout <+:
      (run setting arguments reader input (errorSink true)).stdout
    refine ⟨setting.printed rest, ?_⟩
    rw [hstdout, hwhole, ← setting.printed_append]
    exact congrArg _ hrest
  refusedErrors := by
    intro hsession setting hreads before source after hcut hbefore hsource
    subst hsession hcut
    obtain ⟨hstdout, -⟩ := run_heard hreads [] reader hlines false
    have hshown : (run setting [] reader input (.limited 0)).stdout = banner ++ _ :=
      hstdout.trans (congrArg (banner ++ ·) (printed_refused setting before hbefore hsource after))
    refine ⟨hshown, ?_⟩
    rw [hshown, List.flatMap_append, List.flatMap_singleton]
    have hsummary := summary_suffix setting sessionName (scan source)
    exact List.suffix_append_of_suffix (List.suffix_append_of_suffix (List.suffix_append_of_suffix hsummary))
  refusedClean := by
    intro hsession h setting hreads
    subst hsession
    obtain ⟨hstdout, -⟩ := run_heard hreads [] reader hlines false
    obtain ⟨hwhole, -⟩ := run_heard hreads [] reader hlines true
    refine hstdout.trans (Eq.trans ?_ hwhole.symm)
    exact congrArg (banner ++ ·) (printed_clean setting lines h)

/-- Both lines have an error, and the second is not read where the first cannot be answered. -/
theorem undisturbed_twoErrors :
    (run (.dumb .bare) [] Folder.empty.read [0x40, 0x0a, 0x40] .unlimited).stderr.received =
        Text.utf8 ("[line 1] Error : Unexpected character '@'.\n" ++ "[line 1] Error : Unexpected character '@'.\n").toList ∧
      (run (.xterm .bare) [] Folder.empty.read [0x40, 0x0a, 0x40] .unlimited).stderr.received =
        Text.utf8 ("\x1b[0m\x1b[31m[line 1] Error : Unexpected character '@'.\n\x1b[0m" ++
          "\x1b[0m\x1b[31m[line 1] Error : Unexpected character '@'.\n\x1b[0m").toList ∧
      (run (.xterm .numbered) [] Folder.empty.read [0x40, 0x0a, 0x40] (.limited 0)).stdout =
        banner ++ "== repl ==\n0000 #0002 EOF  \n# 1 tokens, 1 errors\n".toList := by
  have hlines : IsLines [0x40, 0x0a, 0x40] [[0x40, 0x0a], [0x40]] := by decide
  have hundisturbed := undisturbed_run [] Folder.empty.read hlines
  obtain ⟨-, hdumb⟩ := hundisturbed.dumb _ (Setting.isDumb_dumb .bare)
  obtain ⟨-, hxterm⟩ := hundisturbed.xterm _ (Setting.isXterm_xterm .bare)
  obtain ⟨hrefused, -⟩ := hundisturbed.refusedErrors rfl _ (Setting.isXterm_xterm .numbered).reads [] ['@', '\n'] [[0x40]]
    (by decide +kernel) (by simp) (by decide +kernel)
  exact ⟨hdumb.trans (by decide +kernel), hxterm.trans (by decide +kernel), hrefused.trans (by decide +kernel)⟩

end LoxFront.Command
