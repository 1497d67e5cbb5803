/-
  LoxFront.Cursor.Pass — from the front of the source to its end, step by step.

  Every step leaves less to read, so a pass ends. It reads all segments, and it never looks
  outside the source (`run_eq`).
-/

import LoxFront.Cursor.Steps

namespace LoxFront

namespace Cursor

theorem length_rest_of_step {c next : Cursor} {reading : Reading} (h : c.begun.step = some (reading, next)) :
    next.rest.length < c.rest.length := by
  cases hrest : c.rest with
  | nil =>
    simp [step, advance_nil (c := c.begun) hrest] at h
  | cons d t =>
    rw [step_eq rfl (c := c.begun) hrest] at h
    cases h
    have hsplit : c.begun.rest = (Segment.next d t).1.text ++ (Segment.next d t).2 :=
      hrest.trans (Segment.next_text d t).symm
    rw [rest_past_of_append hsplit]
    exact Nat.lt_succ_of_le (Segment.next_length d t)

variable {ρ : Type}

/-- Steps to the end. Tokens are put behind `tokens`; an error goes to the reporter when
    it is met and does not stop the pass. -/
def run (report : ρ → LexicalError → ρ) (c : Cursor) (tokens : Array Token) (reporter : ρ) :
    Option (Array Token × ρ) :=
  if c.atEnd then some (tokens.push (.eof c.line), reporter)
  else
    match _ : c.begun.step with
    | some (.ok (some t), next) => run report next (tokens.push t) reporter
    | some (.ok none, next) => run report next tokens reporter
    | some (.error e, next) => run report next tokens (report reporter e)
    | none => none
termination_by c.rest.length
decreasing_by all_goals exact length_rest_of_step ‹_›

section

variable {report : ρ → LexicalError → ρ} {c next : Cursor} {tokens : Array Token} {reporter : ρ}

theorem run_of_token {t : Token} (hend : c.atEnd = false) (hstep : c.begun.step = some (.ok (some t), next)) :
    run report c tokens reporter = run report next (tokens.push t) reporter := by
  rw [run, if_neg (by simp [hend])]
  split <;> simp_all

theorem run_of_nothing (hend : c.atEnd = false) (hstep : c.begun.step = some (.ok none, next)) :
    run report c tokens reporter = run report next tokens reporter := by
  rw [run, if_neg (by simp [hend])]
  split <;> simp_all

theorem run_of_error {e : LexicalError} (hend : c.atEnd = false) (hstep : c.begun.step = some (.error e, next)) :
    run report c tokens reporter = run report next tokens (report reporter e) := by
  rw [run, if_neg (by simp [hend])]
  split <;> simp_all

/-- A step puts what its segment says behind the tokens, or gives it to the reporter. -/
theorem run_of_reads {s : Segment} (hend : c.atEnd = false) (hstep : c.begun.step = c.begun.reads s) :
    run report c tokens reporter =
      run report (c.begun.past s.text) (tokens ++ (s.token? (c.line + s.text.lineBreaks)).toList)
        ((s.error? (c.line + s.text.lineBreaks)).toList.foldl report reporter) := by
  have hreading : c.begun.step = some (s.reading (c.line + s.text.lineBreaks), c.begun.past s.text) := hstep
  cases he : s.error? (c.line + s.text.lineBreaks) with
  | some e =>
    obtain ⟨hr, ht⟩ := Segment.reading_of_error he
    rw [hr] at hreading
    simp [run_of_error hend hreading, ht]
  | none =>
    rw [Segment.reading_of_no_error he] at hreading
    cases ht : s.token? (c.line + s.text.lineBreaks) with
    | none =>
      rw [ht] at hreading
      simp [run_of_nothing hend hreading]
    | some t =>
      rw [ht] at hreading
      simp [run_of_token hend hreading]

end

/-- The rest of a pass, for any reporter: the readings of all segments in front. -/
theorem run_eq (report : ρ → LexicalError → ρ) (c : Cursor) (tokens : Array Token) (reporter : ρ) :
    run report c tokens reporter =
      some (tokens ++ (tokensFrom c.line (segments c.rest) ++ [.eof (c.line + c.rest.lineBreaks)]),
        (errorsFrom c.line (segments c.rest)).foldl report reporter) := by
  induction hrest : c.rest using segments.induct generalizing c tokens reporter with
  | case1 =>
    rw [run, if_pos (atEnd_of_nil hrest)]
    simp [segments, tokensFrom, errorsFrom, endLines, Text.lineBreaks]
  | case2 d t ih =>
    have hstep : c.begun.step = c.begun.reads (Segment.next d t).1 := step_eq rfl hrest
    have hsplit : c.begun.rest = (Segment.next d t).1.text ++ (Segment.next d t).2 :=
      hrest.trans (Segment.next_text d t).symm
    have hlines : Text.lineBreaks (d :: t) =
        (Segment.next d t).1.text.lineBreaks + (Segment.next d t).2.lineBreaks := by
      rw [← Text.lineBreaks_append, Segment.next_text]
    rw [run_of_reads (atEnd_of_cons hrest) hstep, ih _ _ _ (rest_past_of_append hsplit), segments, hlines, tokensFrom_cons,
      errorsFrom_cons]
    refine congrArg some (Prod.ext (Array.toList_inj.mp ?_) ?_)
    · simp [begun, Nat.add_assoc]
    · simp [begun]

theorem isSome_run (report : ρ → LexicalError → ρ) (c : Cursor) (tokens : Array Token) (reporter : ρ) :
    (run report c tokens reporter).isSome = true := by
  simp [run_eq]

end Cursor

end LoxFront
