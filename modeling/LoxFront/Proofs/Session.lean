/-
  LoxFront.Proofs.Session — a session is its lines, each run as a file of its own.

  An editor that reads lines gives the lines of the input one by one. One log serves all of
  them, and its flag is never taken back. But at every prompt the log has no entries, and
  nothing shown for a line depends on the flag: what a line adds to either output is what a
  run of a file with that one line writes (`runLines_open`). The lines end with the input,
  or in front of the first one that is not text.
-/

import LoxFront.Console
import LoxFront.Proofs.Delivery
import Mathlib.Data.List.TakeWhile

namespace LoxFront

/-- The log of one scan. -/
def Scan.log (s : Scan) : Log := Log.empty.recordScan s

theorem Scan.entries_log (s : Scan) : s.log.entries = s.errors.map LexicalError.diagnostic := rfl

theorem Scan.length_log (s : Scan) : s.log.entries.length = s.errors.length := List.length_map _

theorem Scan.hadError_log (s : Scan) : s.log.hadError = !s.errors.isEmpty := by
  simp [log, Log.recordScan, Log.record, Log.empty]

theorem Terminal.logBytes_log (terminal : Terminal) (s : Scan) :
    terminal.logBytes s.log =
      if s.errors = [] then [] else terminal.dressed .red (Text.utf8 (s.errors.flatMap fun e => Log.line e.diagnostic)) := by
  simp only [Terminal.logBytes, Scan.entries_log, List.map_eq_nil_iff, List.flatMap_map, Text.utf8, List.flatMap_assoc]

namespace Command

/-- What a run does after showing something: if that failed, it fails too. -/
def proceed (terminal : Terminal) (shown : Except Sink Sink) (next : Sink → Outcome) : Outcome :=
  match shown with
  | .error err => fail terminal .unknown err
  | .ok err => next err

theorem proceed_open (terminal : Terminal) {write : Sink → Except Sink Sink} {bytes : List UInt8} (h : Delivers write bytes)
    {err : Sink} (herr : err.room = none) (next : Sink → Outcome) :
    ∃ t, proceed terminal (write err) next = next t ∧ t.room = none ∧ t.received = err.received ++ bytes := by
  obtain ⟨t, ht, hroom, hreceived⟩ := h.taken err herr
  exact ⟨t, by rw [ht, proceed], hroom, hreceived⟩

theorem proceed_full (terminal : Terminal) {write : Sink → Except Sink Sink} {bytes : List UInt8} (h : Delivers write bytes)
    {err : Sink} (herr : err.room = some 0) (next : Sink → Outcome) :
    ∃ t, proceed terminal (write err) next = (if bytes = [] then next t else fail terminal .unknown t) ∧ t.room = some 0 := by
  obtain ⟨t, ht, hroom, -⟩ := h.refused err herr
  refine ⟨t, ?_, hroom⟩
  rw [ht]
  split <;> rfl

variable (setting : Setting)

/-- What standard output shows of a scan. -/
def listed (name : Text) (s : Scan) : Text := setting.listing.report name s.tokens s.errors.length

/-! ## A file -/

/-- The end of a file run whose scan has been shown. -/
def finish (s : Scan) (err : Sink) : Outcome :=
  if s.errors = [] then succeed err else fail setting.terminal (.scan s.errors.length) err

theorem runFile_text {reader : Reader} {path source : Text} (h : reader path = .ok source.utf8) (err : Sink) :
    runFile setting reader path err =
      .behind (listed setting path (scan source))
        (proceed setting.terminal (setting.terminal.showLog (scan source).log err) (finish setting (scan source))) := by
  have hflag : ((scan source).log.hadError = true) = ((scan source).errors ≠ []) := by simp [Scan.hadError_log]
  have hlog : Log.empty.recordScan (scan source) = (scan source).log := rfl
  rw [runFile, scanPath_ok .empty h, hlog]
  simp only [Scan.length_log, hflag, ne_eq, ite_not]
  rfl

theorem runFile_open {reader : Reader} {path source : Text} (h : reader path = .ok source.utf8) {err : Sink}
    (herr : err.room = none) :
    ∃ t, runFile setting reader path err =
        ⟨listed setting path (scan source), t,
          if (scan source).errors = [] then 0 else 65⟩ ∧
      t.received = err.received ++ setting.terminal.logBytes (scan source).log := by
  obtain ⟨t, ht, -, hreceived⟩ := proceed_open setting.terminal (setting.terminal.delivers_showLog (scan source).log) herr
    (finish setting (scan source))
  refine ⟨t, ?_, hreceived⟩
  rw [runFile_text setting h, ht, finish]
  split <;> simp [Outcome.behind, succeed, fail, Failure.hasMessage, Failure.exitCode]

/-! ## A line -/

section

variable {setting : Setting} (hreads : setting.editor.ReadsLines) {log : Log}
include hreads

theorem runLines_text (hlog : log.entries = []) {source : Text} {rest : List UInt8} (h : IsFirstLine source.utf8 rest)
    (err : Sink) :
    runLines setting (source.utf8 ++ rest) log err =
      .behind (setting.editor.prompted prompt)
        (.behind (listed setting sessionName (scan source))
          (proceed setting.terminal (setting.terminal.showLog (scan source).log err)
            (runLines setting rest (log.recordScan (scan source)).drain))) := by
  have hentries : (log.recordScan (scan source)).entries = (scan source).log.entries := by
    rw [Log.recordScan, Log.record, hlog, List.nil_append, Scan.entries_log]
  obtain ⟨shorter, hread⟩ := hreads.line source rest h
  rw [runLines, hread]
  simp only [Log.scanInto_eq, hentries, Scan.length_log, setting.terminal.showLog_congr hentries]
  rfl

theorem runLines_notText {line rest : List UInt8} (h : IsFirstLine line rest) (hnot : ¬ isText line) (err : Sink) :
    runLines setting (line ++ rest) log err =
      .behind (setting.editor.prompted prompt)
        (proceed setting.terminal (setting.terminal.showMessage unreadableInput err) succeed) := by
  rw [runLines, hreads.notText line rest h hnot]
  rfl

theorem runLines_nil (err : Sink) :
    runLines setting [] log err = .behind (setting.editor.prompted prompt) (.behind farewell (succeed err)) := by
  rw [runLines, hreads.ended]

end

/-! ## All lines -/

/-- The run of a file with this line, among whatever files. -/
def lineRun (folder : Folder) (line : List UInt8) : Outcome :=
  run setting [Text.utf8 "repl".toList] (folder.put "repl".toList (.file line)).read [] .unlimited

theorem read_put (folder : Folder) (line : List UInt8) : (folder.put sessionName (.file line)).read sessionName = .ok line := rfl

theorem lineRun_text (folder : Folder) (source : Text) :
    (lineRun setting folder source.utf8).stdout = listed setting sessionName (scan source) ∧
      (lineRun setting folder source.utf8).stderr.received = setting.terminal.logBytes (scan source).log := by
  have hopen : Sink.unlimited.room = none := rfl
  have hrun : lineRun setting folder source.utf8 =
      runFile setting (folder.put sessionName (.file source.utf8)).read sessionName .unlimited :=
    run_texts setting [sessionName] _ [] .unlimited
  obtain ⟨t, ht, hreceived⟩ := runFile_open setting (read_put folder source.utf8) hopen
  rw [hrun, ht]
  exact ⟨rfl, hreceived⟩

/-- The lines in front of the first one that is not text. -/
def textLines (lines : List (List UInt8)) : List (List UInt8) := lines.takeWhile isText

theorem textLines_of_text {lines : List (List UInt8)} (h : ∀ line ∈ lines, isText line) : textLines lines = lines :=
  List.takeWhile_eq_self_iff.mpr h

theorem textLines_of_notText {before : List (List UInt8)} (hbefore : ∀ l ∈ before, isText l) {line : List UInt8}
    (hline : ¬ isText line) (after : List (List UInt8)) : textLines (before ++ line :: after) = before := by
  rw [textLines, List.takeWhile_append_of_pos hbefore, List.takeWhile_cons_of_neg hline, List.append_nil]

variable {setting}

theorem runLines_open (hreads : setting.editor.ReadsLines) (folder : Folder) {lines : List (List UInt8)}
    {input : List UInt8} (hlines : IsLines input lines) {log : Log} (hlog : log.entries = []) {err : Sink}
    (herr : err.room = none) :
    (runLines setting input log err).stdout =
        (textLines lines).flatMap (fun line => setting.editor.prompted prompt ++ (lineRun setting folder line).stdout) ++
          setting.editor.prompted prompt ++ (if lines.all isText then farewell else []) ∧
      (runLines setting input log err).stderr.received =
        err.received ++ (textLines lines).flatMap (fun line => (lineRun setting folder line).stderr.received) ++
          (if lines.all isText then [] else setting.terminal.messageBytes unreadableInput) ∧
      (runLines setting input log err).exitCode = 0 := by
  -- over all logs without entries: the flag differs from line to line
  induction lines generalizing input log err with
  | nil =>
    obtain rfl : input = [] := hlines.whole.symm
    rw [runLines_nil hreads]
    simp [Outcome.behind, succeed, textLines]
  | cons line lines ih =>
    obtain ⟨rfl, hfirst, hrest⟩ := isLines_cons_iff.mp hlines
    by_cases h : isText line
    · obtain ⟨source, rfl⟩ := isText_iff.mp h
      obtain ⟨hstdout, hstderr⟩ := lineRun_text setting folder source
      obtain ⟨t, ht, hroom, hreceived⟩ := proceed_open setting.terminal
        (setting.terminal.delivers_showLog (scan source).log) herr
        (runLines setting lines.flatten (log.recordScan (scan source)).drain)
      have hdrained : (log.recordScan (scan source)).drain.entries = [] := rfl
      obtain ⟨hmore, hmore', hcode⟩ := ih hrest hdrained hroom
      rw [runLines_text hreads hlog hfirst, ht]
      simp only [Outcome.behind, hmore, hmore', hcode, hstdout, hstderr, hreceived, textLines, List.takeWhile_cons_of_pos h,
        List.all_cons, h, Bool.true_and, List.flatMap_cons, List.append_assoc, and_self]
    · obtain ⟨t, ht, -, hreceived⟩ := proceed_open setting.terminal
        (setting.terminal.delivers_showMessage unreadableInput) herr succeed
      rw [runLines_notText hreads hfirst h, ht]
      simp [Outcome.behind, succeed, textLines, h, hreceived]

theorem banner_eq : banner = "Lox scanner REPL; enter source to see its tokens.\n".toList := by decide +kernel

theorem farewell_eq : farewell = "Stopping REPL...\n".toList := by decide +kernel

theorem messageBytes_unreadableInput (terminal : Terminal) :
    terminal.messageBytes unreadableInput =
      terminal.start .boldRed ++ Text.utf8 "[!] Could not read input from console.\n".toList ++ terminal.reset := by
  have hline : Terminal.messageLine unreadableInput = "[!] Could not read input from console.\n".toList := by decide +kernel
  rw [Terminal.messageBytes, Terminal.dressed, hline]

/-- A session whose standard error takes all writes ends well. Behind the banner, each line
    adds to either output what a run of a file with that line writes there, and behind the
    lines the session is stopped by the end of the input. If there is a line that is not
    text, the session ends there with a message, whatever comes behind. -/
theorem session_eq_lineRuns (hreads : setting.editor.ReadsLines) (folder : Folder) (reader : Reader) {input : List UInt8}
    {lines : List (List UInt8)} (hlines : IsLines input lines) :
    ((∀ line ∈ lines, isText line) →
        (run setting [] reader input .unlimited).stdout =
            "Lox scanner REPL; enter source to see its tokens.\n".toList ++
              lines.flatMap (fun line => setting.editor.prompted "> ".toList ++ (lineRun setting folder line).stdout) ++
              setting.editor.prompted "> ".toList ++ "Stopping REPL...\n".toList ∧
          (run setting [] reader input .unlimited).stderr.received =
            lines.flatMap (fun line => (lineRun setting folder line).stderr.received) ∧
          (run setting [] reader input .unlimited).exitCode = 0) ∧
      ∀ before line after, lines = before ++ line :: after → (∀ l ∈ before, isText l) → ¬ isText line →
        (run setting [] reader input .unlimited).stdout =
            "Lox scanner REPL; enter source to see its tokens.\n".toList ++
              before.flatMap (fun line => setting.editor.prompted "> ".toList ++ (lineRun setting folder line).stdout) ++
              setting.editor.prompted "> ".toList ∧
          (run setting [] reader input .unlimited).stderr.received =
            before.flatMap (fun line => (lineRun setting folder line).stderr.received) ++
              (setting.terminal.start .boldRed ++ Text.utf8 "[!] Could not read input from console.\n".toList ++
                setting.terminal.reset) ∧
          (run setting [] reader input .unlimited).exitCode = 0 := by
  have hempty : Log.empty.entries = [] := rfl
  have hopen : Sink.unlimited.room = none := rfl
  have hrun : run setting [] reader input .unlimited = .behind banner (runLines setting input .empty .unlimited) :=
    run_texts setting [] reader input .unlimited
  obtain ⟨hstdout, hstderr, hcode⟩ := runLines_open hreads folder hlines hempty hopen
  rw [hrun, Outcome.behind]
  refine ⟨?_, ?_⟩
  · intro htext
    have hall : lines.all isText = true := List.all_eq_true.mpr htext
    rw [textLines_of_text htext, if_pos hall] at hstdout hstderr
    refine ⟨?_, ?_, hcode⟩
    · rw [hstdout, ← banner_eq, ← farewell_eq, List.append_assoc banner, List.append_assoc banner]
      rfl
    · rw [hstderr, List.append_nil]
      rfl
  · rintro before line after rfl hbefore hline
    have hall : ¬ (before ++ line :: after).all isText := by simp [hline]
    rw [textLines_of_notText hbefore hline, if_neg hall] at hstdout hstderr
    refine ⟨?_, ?_, hcode⟩
    · rw [hstdout, ← banner_eq, List.append_nil, List.append_assoc banner]
      rfl
    · rw [hstderr, messageBytes_unreadableInput]
      rfl

/-- A plus sign in the last line, which has no line feed, and the same behind a byte that is
    not text. -/
theorem session_errorThenPlus :
    (run (.dumb .bare) [] Folder.empty.read [0x40, 0x0a, 0x2b] .unlimited).stdout =
        ("Lox scanner REPL; enter source to see its tokens.\n> EOF  \n# 1 tokens, 1 errors\n> PLUS + \nEOF  \n" ++
          "# 2 tokens, 0 errors\n> Stopping REPL...\n").toList ∧
      (run (.dumb .bare) [] Folder.empty.read [0x40, 0x0a, 0x2b] .unlimited).exitCode = 0 ∧
      (run (.xterm .numbered) [] Folder.empty.read [0x40, 0x0a, 0xff, 0x0a, 0x2b] .unlimited).stdout =
        "Lox scanner REPL; enter source to see its tokens.\n== repl ==\n0000 #0002 EOF  \n# 1 tokens, 1 errors\n".toList ∧
      (run (.xterm .numbered) [] Folder.empty.read [0x40, 0x0a, 0xff, 0x0a, 0x2b] .unlimited).stderr.received =
        Text.utf8 ("\x1b[0m\x1b[31m[line 1] Error : Unexpected character '@'.\n\x1b[0m" ++
          "\x1b[0m\x1b[1m\x1b[31m[!] Could not read input from console.\n\x1b[0m").toList := by
  have htext : IsLines [0x40, 0x0a, 0x2b] [[0x40, 0x0a], [0x2b]] := by decide
  have hmixed : IsLines [0x40, 0x0a, 0xff, 0x0a, 0x2b] [[0x40, 0x0a], [0xff, 0x0a], [0x2b]] := by decide
  obtain ⟨hends, -⟩ := session_eq_lineRuns (Setting.isDumb_dumb .bare).reads .empty Folder.empty.read htext
  obtain ⟨-, hbreaks⟩ := session_eq_lineRuns (Setting.isXterm_xterm .numbered).reads .empty Folder.empty.read hmixed
  obtain ⟨hstdout, -, hcode⟩ := hends (by decide +kernel)
  obtain ⟨hstdout', hstderr', -⟩ :=
    hbreaks [[0x40, 0x0a]] [0xff, 0x0a] [[0x2b]] rfl (by decide +kernel) (by decide +kernel)
  exact ⟨hstdout.trans (by decide +kernel), hcode, hstdout'.trans (by decide +kernel), hstderr'.trans (by decide +kernel)⟩

end Command

end LoxFront
