/-
  LoxFront.Proofs.ExitCodes — what the exit code of a run tells.

  Of a file run it tells whether the file is text, whether its scan reported anything, and
  if so whether that could be shown. A session ends well unless something was to be shown
  and could not be (`Complains`). Nothing is written to standard error that is empty, so
  one that takes nothing fails exactly where there is something to show. All this is of
  arguments that are text; with others there is no more than a report.
-/

import LoxFront.Proofs.Session

namespace LoxFront.Command

/-- Standard error, taking all writes or none. -/
def errorSink (accepts : Bool) : Sink := if accepts then .unlimited else .limited 0

variable (setting : Setting)

theorem logBytes_log_eq_nil_iff {terminal : Terminal} {s : Scan} : terminal.logBytes s.log = [] ↔ s.errors = [] := by
  rw [terminal.logBytes_eq_nil_iff, Scan.entries_log, List.map_eq_nil_iff]

/-! ## One file -/

theorem exitCode_runFile_text {reader : Reader} {path source : Text} (h : reader path = .ok source.utf8) (accepts : Bool) :
    (runFile setting reader path (errorSink accepts)).exitCode =
      if (scan source).errors = [] then 0 else if accepts then 65 else 70 := by
  cases accepts with
  | true =>
    have hopen : (errorSink true).room = none := rfl
    obtain ⟨t, ht, -⟩ := runFile_open setting h hopen
    exact congrArg Outcome.exitCode ht
  | false =>
    have hfull : (errorSink false).room = some 0 := rfl
    obtain ⟨t, ht, -⟩ := proceed_full setting.terminal (setting.terminal.delivers_showLog (scan source).log) hfull
      (finish setting (scan source))
    rw [runFile_text setting h, Outcome.behind, ht]
    by_cases herrors : (scan source).errors = []
    · rw [if_pos (logBytes_log_eq_nil_iff.mpr herrors), if_pos herrors, finish, if_pos herrors]
      rfl
    · rw [if_neg (mt logBytes_log_eq_nil_iff.mp herrors), if_neg herrors]
      rfl

theorem exitCode_runFile_notText {reader : Reader} {path : Text} (h : ¬ ∃ source : Text, reader path = .ok source.utf8)
    (err : Sink) : (runFile setting reader path err).exitCode = 74 := by
  cases hread : readSource reader path with
  | ok source => exact absurd ⟨source, readSource_ok_iff.mp hread⟩ h
  | error failure =>
    obtain ⟨reason, rfl⟩ := readSource_error hread
    rw [runFile, scanPath, scanPathWith_error _ _ hread]
    rfl

/-! ## Line by line -/

/-- Something is to be shown of these lines: an error in one that is read, or that one is
    not text. -/
def Complains (lines : List (List UInt8)) : Prop :=
  (∃ source : Text, source.utf8 ∈ textLines lines ∧ (scan source).errors ≠ []) ∨ ∃ line ∈ lines, ¬ isText line

theorem complains_text {source : Text} {lines : List (List UInt8)} :
    Complains (source.utf8 :: lines) ↔ (scan source).errors ≠ [] ∨ Complains lines := by
  have htext : isText source.utf8 = true := isText_utf8 source
  constructor
  · intro h
    rcases h with ⟨source', hmem, herrors⟩ | ⟨line, hmem, hline⟩
    · rw [textLines, List.takeWhile_cons_of_pos htext] at hmem
      rcases List.mem_cons.mp hmem with heq | hmem
      · rw [Text.utf8_injective heq] at herrors
        exact .inl herrors
      · exact .inr (.inl ⟨source', hmem, herrors⟩)
    · rcases List.mem_cons.mp hmem with rfl | hmem
      · exact absurd htext hline
      · exact .inr (.inr ⟨line, hmem, hline⟩)
  · intro h
    rcases h with herrors | ⟨source', hmem, herrors⟩ | ⟨line, hmem, hline⟩
    · refine .inl ⟨source, ?_, herrors⟩
      rw [textLines, List.takeWhile_cons_of_pos htext]
      exact List.mem_cons_self
    · refine .inl ⟨source', ?_, herrors⟩
      rw [textLines, List.takeWhile_cons_of_pos htext]
      exact List.mem_cons_of_mem _ hmem
    · exact .inr ⟨line, List.mem_cons_of_mem _ hmem, hline⟩

theorem exitCode_runLines_full {setting : Setting} (hreads : setting.editor.ReadsLines) {lines : List (List UInt8)}
    {input : List UInt8} (hlines : IsLines input lines) {log : Log} (hlog : log.entries = []) {err : Sink}
    (herr : err.room = some 0) :
    Complains lines ∧ (runLines setting input log err).exitCode = 70 ∨
      ¬ Complains lines ∧ (runLines setting input log err).exitCode = 0 := by
  induction lines generalizing input log err with
  | nil =>
    obtain rfl : input = [] := hlines.whole.symm
    rw [runLines_nil hreads]
    exact .inr ⟨by simp [Complains, textLines], rfl⟩
  | cons line lines ih =>
    obtain ⟨rfl, hfirst, hrest⟩ := isLines_cons_iff.mp hlines
    by_cases h : isText line
    · obtain ⟨source, rfl⟩ := isText_iff.mp h
      obtain ⟨t, ht, hroom⟩ := proceed_full setting.terminal
        (setting.terminal.delivers_showLog (scan source).log) herr
        (runLines setting lines.flatten (log.recordScan (scan source)).drain)
      rw [runLines_text hreads hlog hfirst, ht, complains_text]
      by_cases herrors : (scan source).errors = []
      · rw [if_pos (logBytes_log_eq_nil_iff.mpr herrors)]
        simp only [herrors, ne_eq, not_true_eq_false, false_or]
        exact ih hrest rfl hroom
      · rw [if_neg (mt logBytes_log_eq_nil_iff.mp herrors)]
        exact .inl ⟨.inl herrors, rfl⟩
    · obtain ⟨t, ht, -⟩ := proceed_full setting.terminal
        (setting.terminal.delivers_showMessage unreadableInput) herr succeed
      rw [if_neg (setting.terminal.messageBytes_ne_nil _)] at ht
      rw [runLines_notText hreads hfirst h, ht]
      exact .inl ⟨.inr ⟨line, List.mem_cons_self, h⟩, rfl⟩

/-! ## Every run -/

variable (reader : Reader) (input : List UInt8) (accepts : Bool)

def exitCode (arguments : List (List UInt8)) : Nat := (run setting arguments reader input (errorSink accepts)).exitCode

theorem exitCode_texts (arguments : List Text) :
    exitCode setting reader input accepts (arguments.map Text.utf8) =
      (perform setting arguments reader input (errorSink accepts)).exitCode := by
  rw [exitCode, run_texts]

section

variable {setting} (hreads : setting.editor.ReadsLines) {input} {lines : List (List UInt8)} (hlines : IsLines input lines)
include hreads hlines

theorem exitCode_session :
    (exitCode setting reader input accepts [] = 70 ↔ accepts = false ∧ Complains lines) ∧
      (exitCode setting reader input accepts [] = 0 ↔ ¬ (accepts = false ∧ Complains lines)) := by
  have hempty : Log.empty.entries = [] := rfl
  have hrun : exitCode setting reader input accepts [] = (runLines setting input .empty (errorSink accepts)).exitCode :=
    exitCode_texts setting reader input accepts []
  rw [hrun]
  cases accepts with
  | true =>
    have hopen : (errorSink true).room = none := rfl
    obtain ⟨-, -, hcode⟩ := runLines_open hreads .empty hlines hempty hopen
    simp [hcode]
  | false =>
    have hfull : (errorSink false).room = some 0 := rfl
    rcases exitCode_runLines_full hreads hlines hempty hfull with ⟨hcomplains, hcode⟩ | ⟨hcomplains, hcode⟩
    · simp [hcode, hcomplains]
    · simp [hcode, hcomplains]

end

end LoxFront.Command
