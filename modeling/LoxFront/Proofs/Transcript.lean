/-
  LoxFront.Proofs.Transcript — what a run shows, apart from its setting.

  A transcript lists what a run has to show, in order, from the arguments, the files and the
  lines of the input alone. The setting says how each item looks on either output
  (`Item.onStdout`, `Item.onStderr`). Standard error has a say in how far the run comes: one
  that takes nothing ends it at the first notice (`heard`). So what a run writes is known
  from its transcript in any setting whose editor reads lines (`run_heard`).
-/

import LoxFront.Proofs.ExitCodes

namespace LoxFront

inductive Item
  | prompt
  /-- In front of the tokens of the source with this name. -/
  | heading (name : Text)
  | token (index : Nat) (token : Token)
  | text (text : Text)
  /-- All else is for standard output, this and what follows is for standard error. -/
  | batch (errors : List LexicalError)
  | message (words : Text)
  | panic (arguments : List (List UInt8))

namespace Item

/-- A label stands in front of a token's text, on its line. -/
def onStdout (prompt : Text) (heading : Text → Text) (label : Nat → Token → Text) : Item → Text
  | .prompt => prompt
  | .heading name => heading name
  | .token index t => outputLine (label index t ++ t.text)
  | .text t => t
  | .batch _ | .message _ | .panic _ => []

/-- The first two are what stands in front of a batch and in front of a message. -/
def onStderr (batchStart messageStart reset : List UInt8) (panicReport : List (List UInt8) → List UInt8) :
    Item → List UInt8
  | .batch errors => batchStart ++ Text.utf8 (errors.flatMap fun e => Log.line e.diagnostic) ++ reset
  | .message words => messageStart ++ Text.utf8 (outputLine ("[!] ".toList ++ words)) ++ reset
  | .panic arguments => panicReport arguments
  | _ => []

def isNotice : Item → Bool
  | .batch _ | .message _ | .panic _ => true
  | _ => false

/-- A scan on standard output: indices count from zero, and the end of the source counts. -/
def listed (name : Text) (s : Scan) : List Item :=
  .heading name :: (s.tokens.zipIdx.map fun p => .token p.2 p.1) ++
    [.text (outputLine (Listing.summary s.tokens.length s.errors.length))]

/-- A scan on standard error: its errors in one batch, nothing if there are none. -/
def complaints (s : Scan) : List Item :=
  if s.errors = [] then [] else [.batch s.errors]

end Item

/-- Some items on standard output. -/
def Setting.printed (setting : Setting) (items : List Item) : Text :=
  items.flatMap (Item.onStdout (setting.editor.prompted Command.prompt) setting.listing.heading setting.listing.label)

/-- Some items on standard error. -/
def Setting.noticed (setting : Setting) (items : List Item) : List UInt8 :=
  items.flatMap <|
    Item.onStderr (setting.terminal.start .red) (setting.terminal.start .boldRed) setting.terminal.reset setting.panicReport

namespace Command

def fileItems (reader : Reader) (path : Text) : List Item :=
  match readSource reader path with
  | .ok source => Item.listed path (scan source) ++ Item.complaints (scan source)
  | .error failure => [.message failure.text]

def sessionItems : List (List UInt8) → List Item
  | [] => [.prompt, .text farewell]
  | line :: lines =>
    .prompt ::
      match Text.ofUtf8? line with
      | none => [.message unreadableInput]
      | some source => Item.listed sessionName (scan source) ++ Item.complaints (scan source) ++ sessionItems lines

def textItems (arguments : List Text) (reader : Reader) (lines : List (List UInt8)) : List Item :=
  match arguments with
  | [] => .text banner :: sessionItems lines
  | [path] => fileItems reader path
  | _ => [.text usage]

def transcript (arguments : List (List UInt8)) (reader : Reader) (lines : List (List UInt8)) : List Item :=
  match arguments.mapM Text.ofUtf8? with
  | some texts => textItems texts reader lines
  | none => [.panic arguments]

/-- What is shown of some items: where standard error takes nothing, those in front of the
    first notice. -/
def heard (accepts : Bool) (items : List Item) : List Item :=
  if accepts then items else items.takeWhile (!·.isNotice)

end Command

/-! ## The items of a scan -/

namespace Item

theorem isNotice_listed {name : Text} {s : Scan} {i : Item} (h : i ∈ listed name s) : i.isNotice = false := by
  simp only [listed, List.mem_cons, List.mem_append, List.mem_map, List.not_mem_nil, or_false] at h
  rcases h with (rfl | ⟨p, -, rfl⟩) | rfl <;> rfl

end Item

namespace Setting

variable (setting : Setting)

theorem printed_append (items more : List Item) :
    setting.printed (items ++ more) = setting.printed items ++ setting.printed more :=
  List.flatMap_append

theorem noticed_append (items more : List Item) :
    setting.noticed (items ++ more) = setting.noticed items ++ setting.noticed more :=
  List.flatMap_append

theorem printed_prompt (items : List Item) :
    setting.printed (.prompt :: items) = setting.editor.prompted Command.prompt ++ setting.printed items :=
  List.flatMap_cons

variable (name : Text) (s : Scan)

theorem printed_listed : setting.printed (Item.listed name s) = Command.listed setting name s := by
  rw [Command.listed, Listing.report_eq]
  simp only [printed, Item.listed, List.flatMap_append, List.flatMap_cons, List.flatMap_map, List.flatMap_nil,
    Item.onStdout, Listing.entry, List.append_nil]

theorem noticed_listed : setting.noticed (Item.listed name s) = [] := by
  simp [noticed, Item.listed, Item.onStderr, List.flatMap_map]

theorem printed_complaints : setting.printed (Item.complaints s) = [] := by
  unfold Item.complaints
  split <;> rfl

theorem noticed_complaints : setting.noticed (Item.complaints s) = setting.terminal.logBytes s.log := by
  rw [Item.complaints, setting.terminal.logBytes_log]
  split
  · rfl
  · exact List.append_nil _

end Setting

namespace Command

/-- Nothing is cut off a listing. -/
theorem heard_listed (accepts : Bool) (name : Text) (s : Scan) (rest : List Item) :
    heard accepts (Item.listed name s ++ rest) = Item.listed name s ++ heard accepts rest := by
  cases accepts with
  | true => rfl
  | false =>
    apply List.takeWhile_append_of_pos
    intro i hi
    rw [Item.isNotice_listed hi]
    rfl

theorem heard_nil (accepts : Bool) : heard accepts [] = [] := by cases accepts <;> rfl

theorem heard_cons {i : Item} (h : i.isNotice = false) (accepts : Bool) (rest : List Item) :
    heard accepts (i :: rest) = i :: heard accepts rest := by
  cases accepts with
  | true => rfl
  | false =>
    show (i :: rest).takeWhile (!·.isNotice) = i :: rest.takeWhile (!·.isNotice)
    rw [List.takeWhile_cons, h]
    rfl

/-- A scan's errors are shown with all that follows, or end what is shown. -/
theorem heard_complaints (accepts : Bool) (s : Scan) (rest : List Item) :
    heard accepts (Item.complaints s ++ rest) =
      if accepts = true ∨ s.errors = [] then Item.complaints s ++ heard accepts rest else [] := by
  unfold Item.complaints
  by_cases h : s.errors = []
  · rw [if_pos h, if_pos (.inr h)]
    rfl
  · cases accepts with
    | true => rfl
    | false =>
      rw [if_neg h, if_neg (by simp [h])]
      rfl

/-! ## Standard error -/

theorem room_errorSink (accepts : Bool) : (errorSink accepts).room = if accepts then none else some 0 := by
  cases accepts <;> rfl

theorem received_errorSink (accepts : Bool) : (errorSink accepts).received = [] := by cases accepts <;> rfl

/-- Where standard error takes everything or nothing, what is shown comes through whole, or
    not at all and ends the run unless it is nothing. -/
theorem proceed_heard (terminal : Terminal) {write : Sink → Except Sink Sink} {bytes : List UInt8} (h : Delivers write bytes)
    {accepts : Bool} {err : Sink} (herr : err.room = if accepts then none else some 0) (next : Sink → Outcome) :
    ∃ t, proceed terminal (write err) next = (if accepts = true ∨ bytes = [] then next t else fail terminal .unknown t) ∧
      t.room = err.room ∧ t.received = err.received ++ if accepts then bytes else [] := by
  cases accepts with
  | true =>
    obtain ⟨t, ht, hroom, hreceived⟩ := h.taken err herr
    exact ⟨t, by rw [ht, proceed, if_pos (.inl rfl)], hroom.trans herr.symm, hreceived⟩
  | false =>
    obtain ⟨t, ht, hroom, hreceived⟩ := h.refused err herr
    refine ⟨t, ?_, hroom.trans herr.symm, hreceived.trans (List.append_nil _).symm⟩
    by_cases hb : bytes = []
    · rw [ht, if_pos hb, if_pos (.inr hb), proceed]
    · rw [ht, if_neg hb, if_neg (by simp [hb]), proceed]

theorem received_fail (terminal : Terminal) (failure : Failure) {accepts : Bool} {err : Sink}
    (herr : err.room = if accepts then none else some 0) :
    (fail terminal failure err).stderr.received =
      err.received ++ if accepts = true ∧ failure.hasMessage = true then terminal.messageBytes failure.text else [] := by
  unfold fail
  by_cases hmessage : failure.hasMessage = true
  · rw [if_pos hmessage]
    cases accepts with
    | true =>
      obtain ⟨t, ht, -, hreceived⟩ := (terminal.delivers_showMessage failure.text).taken err herr
      rw [ht, if_pos ⟨rfl, hmessage⟩]
      exact hreceived
    | false =>
      obtain ⟨t, ht, -, hreceived⟩ := (terminal.delivers_showMessage failure.text).refused err herr
      rw [ht, if_neg (terminal.messageBytes_ne_nil _), if_neg (by simp), List.append_nil]
      exact hreceived
  · rw [if_neg hmessage, if_neg (by simp [hmessage]), List.append_nil]

variable (setting : Setting)

/-! ## A file -/

/-- The listing of a file comes before all that can fail, and nothing behind it asks for the
    listing. -/
theorem runFile_listing (reader : Reader) (path : Text) (err : Sink) :
    ∃ stderr code, ∀ listing, runFile { setting with listing := listing } reader path err =
      ⟨Setting.printed { setting with listing := listing } (fileItems reader path), stderr, code⟩ := by
  unfold fileItems
  cases hread : readSource reader path with
  | ok source =>
    have hend : ∃ stderr code, ∀ listing,
        proceed setting.terminal (setting.terminal.showLog (scan source).log err)
          (finish { setting with listing := listing } (scan source)) = ⟨[], stderr, code⟩ := by
      cases setting.terminal.showLog (scan source).log err with
      | error t => exact ⟨_, _, fun _ => rfl⟩
      | ok t =>
        by_cases h : (scan source).errors = []
        · exact ⟨_, _, fun _ => if_pos h⟩
        · exact ⟨_, _, fun _ => if_neg h⟩
    obtain ⟨stderr, code, hend⟩ := hend
    refine ⟨stderr, code, ?_⟩
    intro listing
    rw [runFile_text _ (readSource_ok_iff.mp hread), hend, Setting.printed_append, Setting.printed_listed,
      Setting.printed_complaints]
    rfl
  | error failure =>
    refine ⟨(fail setting.terminal failure err).stderr, failure.exitCode, ?_⟩
    intro listing
    rw [runFile, scanPath, scanPathWith_error _ _ hread]
    rfl

theorem stdout_runFile (reader : Reader) (path : Text) (err : Sink) :
    (runFile setting reader path err).stdout = setting.printed (fileItems reader path) := by
  obtain ⟨stderr, code, h⟩ := runFile_listing setting reader path err
  exact congrArg Outcome.stdout (h setting.listing)

theorem stderr_runFile (reader : Reader) (path : Text) (accepts : Bool) :
    (runFile setting reader path (errorSink accepts)).stderr.received =
      if accepts then setting.noticed (fileItems reader path) else [] := by
  unfold fileItems
  cases hread : readSource reader path with
  | ok source =>
    obtain ⟨t, ht, hroom, hreceived⟩ := proceed_heard setting.terminal
      (setting.terminal.delivers_showLog (scan source).log) (room_errorSink accepts) (finish setting (scan source))
    have hroom : t.room = if accepts then none else some 0 := hroom.trans (room_errorSink accepts)
    rw [runFile_text setting (readSource_ok_iff.mp hread), Outcome.behind, ht]
    dsimp only
    rw [setting.noticed_append, setting.noticed_listed, setting.noticed_complaints, List.nil_append]
    rw [received_errorSink, List.nil_append] at hreceived
    split
    · -- the errors have come through: a failure for them shows nothing more
      unfold finish
      split
      · exact hreceived
      · rw [received_fail setting.terminal _ hroom, if_neg (by simp [Failure.hasMessage]), List.append_nil, hreceived]
    · next h =>
      have hfull : accepts = false := by simpa using fun ha => h (.inl ha)
      subst hfull
      rw [received_fail setting.terminal _ hroom, if_neg (by simp), List.append_nil, hreceived]
  | error failure =>
    obtain ⟨reason, rfl⟩ := readSource_error hread
    rw [runFile, scanPath, scanPathWith_error _ _ hread]
    dsimp only
    rw [received_fail setting.terminal _ (room_errorSink accepts), received_errorSink, List.nil_append]
    cases accepts with
    | true => exact (List.append_nil _).symm
    | false => rfl

theorem printed_heard_fileItems (accepts : Bool) (reader : Reader) (path : Text) :
    setting.printed (heard accepts (fileItems reader path)) = setting.printed (fileItems reader path) := by
  unfold fileItems
  split
  · next source _ =>
    have hcomplaints := heard_complaints accepts (scan source) []
    rw [List.append_nil] at hcomplaints
    rw [heard_listed, hcomplaints, setting.printed_append, setting.printed_append, setting.printed_complaints]
    split
    · rw [heard_nil, List.append_nil, setting.printed_complaints]
    · rfl
  · cases accepts <;> rfl

/-! ## A session -/

theorem sessionItems_text (source : Text) (lines : List (List UInt8)) :
    sessionItems (source.utf8 :: lines) =
      .prompt :: (Item.listed sessionName (scan source) ++ (Item.complaints (scan source) ++ sessionItems lines)) := by
  rw [sessionItems, Text.ofUtf8?_utf8]
  simp only [List.append_assoc]

/-- A line's listing is always shown, what follows only where its errors could be. -/
theorem printed_heard_text (accepts : Bool) (source : Text) (lines : List (List UInt8)) :
    setting.printed (heard accepts (sessionItems (source.utf8 :: lines))) =
      setting.editor.prompted prompt ++ (listed setting sessionName (scan source) ++
        if accepts = true ∨ (scan source).errors = [] then setting.printed (heard accepts (sessionItems lines)) else []) := by
  rw [sessionItems_text, heard_cons rfl, heard_listed, heard_complaints, setting.printed_prompt, setting.printed_append,
    setting.printed_listed]
  split
  · rw [setting.printed_append, setting.printed_complaints, List.nil_append]
  · rfl

theorem noticed_text (source : Text) (lines : List (List UInt8)) :
    setting.noticed (sessionItems (source.utf8 :: lines)) =
      setting.terminal.logBytes (scan source).log ++ setting.noticed (sessionItems lines) := by
  rw [sessionItems_text]
  show setting.noticed (Item.listed sessionName (scan source) ++ _) = _
  rw [setting.noticed_append, setting.noticed_append, setting.noticed_listed, setting.noticed_complaints]
  rfl

theorem sessionItems_notText {line : List UInt8} (h : ¬ isText line) (lines : List (List UInt8)) :
    sessionItems (line :: lines) = [.prompt, .message unreadableInput] := by
  rw [sessionItems, ofUtf8?_of_not_isText h]

variable {setting}

theorem runLines_heard (hreads : setting.editor.ReadsLines) {accepts : Bool} {lines : List (List UInt8)}
    {input : List UInt8} (hlines : IsLines input lines) {log : Log} (hlog : log.entries = []) {err : Sink}
    (herr : err.room = if accepts then none else some 0) :
    (runLines setting input log err).stdout = setting.printed (heard accepts (sessionItems lines)) ∧
      (runLines setting input log err).stderr.received =
        err.received ++ if accepts then setting.noticed (sessionItems lines) else [] := by
  induction lines generalizing input log err with
  | nil =>
    obtain rfl : input = [] := hlines.whole.symm
    rw [runLines_nil hreads]
    refine ⟨?_, ?_⟩
    · cases accepts <;> rfl
    · cases accepts <;> exact (List.append_nil _).symm
  | cons line lines ih =>
    obtain ⟨rfl, hfirst, hrest⟩ := isLines_cons_iff.mp hlines
    by_cases h : isText line
    · obtain ⟨source, rfl⟩ := isText_iff.mp h
      obtain ⟨t, ht, hroom, hreceived⟩ := proceed_heard setting.terminal
        (setting.terminal.delivers_showLog (scan source).log) herr
        (runLines setting lines.flatten (log.recordScan (scan source)).drain)
      have hdrained : (log.recordScan (scan source)).drain.entries = [] := rfl
      have hroom : t.room = if accepts then none else some 0 := hroom.trans herr
      obtain ⟨hstdout, hstderr⟩ := ih hrest hdrained hroom
      rw [runLines_text hreads hlog hfirst, ht, printed_heard_text, noticed_text]
      simp only [Outcome.behind, logBytes_log_eq_nil_iff]
      by_cases hshown : accepts = true ∨ (scan source).errors = []
      · rw [if_pos hshown, if_pos hshown, hstdout, hstderr, hreceived]
        refine ⟨rfl, ?_⟩
        cases accepts with
        | true => exact List.append_assoc _ _ _
        | false => exact List.append_nil _
      · -- the session ends here, and nothing has come through
        have hfull : accepts = false := by simpa using fun ha => hshown (.inl ha)
        subst hfull
        rw [if_neg hshown, if_neg hshown, received_fail setting.terminal _ hroom, hreceived]
        exact ⟨rfl, by simp⟩
    · obtain ⟨t, ht, hroom, hreceived⟩ := proceed_heard setting.terminal
        (setting.terminal.delivers_showMessage unreadableInput) herr succeed
      have hroom : t.room = if accepts then none else some 0 := hroom.trans herr
      rw [runLines_notText hreads hfirst h, ht, sessionItems_notText h]
      simp only [setting.terminal.messageBytes_ne_nil, or_false]
      cases accepts with
      | true =>
        refine ⟨rfl, hreceived.trans (congrArg (err.received ++ ·) ?_)⟩
        exact (List.append_nil _).symm
      | false =>
        refine ⟨rfl, ?_⟩
        show (fail setting.terminal .unknown t).stderr.received = err.received ++ []
        rw [received_fail setting.terminal _ hroom, hreceived]
        exact List.append_nil _

/-! ## Every run -/

theorem transcript_texts (arguments : List Text) (reader : Reader) (lines : List (List UInt8)) :
    transcript (arguments.map Text.utf8) reader lines = textItems arguments reader lines := by
  rw [transcript, mapM_ofUtf8?_utf8]

theorem transcript_notText {arguments : List (List UInt8)} (h : ∃ a ∈ arguments, ¬ isText a) (reader : Reader)
    (lines : List (List UInt8)) : transcript arguments reader lines = [.panic arguments] := by
  rw [transcript, mapM_ofUtf8?_of_not_isText h]

theorem panic_heard (setting : Setting) (arguments : List (List UInt8)) (accepts : Bool) :
    (panic setting arguments (errorSink accepts)).stdout = setting.printed (heard accepts [.panic arguments]) ∧
      (panic setting arguments (errorSink accepts)).stderr.received =
        if accepts then setting.noticed [.panic arguments] else [] := by
  cases accepts with
  | true =>
    obtain ⟨t, ht, -, hreceived⟩ := (Delivers.write (setting.panicReport arguments)).taken (errorSink true) rfl
    refine ⟨rfl, ?_⟩
    rw [panic, ht]
    exact hreceived.trans (List.append_nil _).symm
  | false =>
    obtain ⟨t, ht, -, hreceived⟩ := (Delivers.write (setting.panicReport arguments)).refused (errorSink false) rfl
    refine ⟨rfl, ?_⟩
    rw [panic, ht]
    split <;> exact hreceived

theorem perform_heard (hreads : setting.editor.ReadsLines) (arguments : List Text) (reader : Reader) {input : List UInt8}
    {lines : List (List UInt8)} (hlines : IsLines input lines) (accepts : Bool) :
    (perform setting arguments reader input (errorSink accepts)).stdout =
        setting.printed (heard accepts (textItems arguments reader lines)) ∧
      (perform setting arguments reader input (errorSink accepts)).stderr.received =
        if accepts then setting.noticed (textItems arguments reader lines) else [] := by
  match arguments with
  | [] =>
    have hempty : Log.empty.entries = [] := rfl
    obtain ⟨hstdout, hstderr⟩ := runLines_heard hreads hlines hempty (room_errorSink accepts)
    refine ⟨?_, ?_⟩
    · rw [textItems, heard_cons rfl]
      exact congrArg (banner ++ ·) hstdout
    · rw [received_errorSink, List.nil_append] at hstderr
      exact hstderr
  | [path] =>
    refine ⟨?_, stderr_runFile setting reader path accepts⟩
    rw [textItems, printed_heard_fileItems]
    exact stdout_runFile setting reader path _
  | _ :: _ :: _ =>
    refine ⟨?_, ?_⟩
    · cases accepts <;> rfl
    · cases accepts <;> rfl

theorem run_heard (hreads : setting.editor.ReadsLines) (arguments : List (List UInt8)) (reader : Reader)
    {input : List UInt8} {lines : List (List UInt8)} (hlines : IsLines input lines) (accepts : Bool) :
    (run setting arguments reader input (errorSink accepts)).stdout =
        setting.printed (heard accepts (transcript arguments reader lines)) ∧
      (run setting arguments reader input (errorSink accepts)).stderr.received =
        if accepts then setting.noticed (transcript arguments reader lines) else [] := by
  rcases texts_or_not arguments with ⟨texts, rfl⟩ | h
  · rw [run_texts, transcript_texts]
    exact perform_heard hreads texts reader hlines accepts
  · rw [run_notText setting h, transcript_notText h]
    exact panic_heard setting arguments accepts

end Command

end LoxFront
