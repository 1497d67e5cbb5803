/-
  LoxFront.Proofs.Blanking — comments and errors are as good as blanks.

  Whatever a scan skips or reports can be overwritten with a space and the line feeds that
  it holds: no two tokens come together, none is cut and none changes its line. What is
  left has the same tokens and no error (`readings_blanked`).
-/

import LoxFront.Proofs.Seam

namespace LoxFront

/-! ## One segment -/

namespace Segment

/-- Tokens and blanks stay. An unexpected character gives way to a space; a comment, and a
    string that nothing closes, to a space and as many line feeds as it holds. -/
def blanked (s : Segment) : Text :=
  match s with
  | .mark _ | .word _ | .number .. | .string _ | .blank _ => s.text
  | .unexpected _ => [' ']
  | .openString _ | .lineComment _ | .blockComment _ | .openComment _ => ' ' :: List.replicate s.text.lineBreaks '\n'

theorem blanked_of_form? {s : Segment} {f : Form} (h : s.form? = some f) : s.blanked = s.text := by
  cases s <;> cases h <;> rfl

theorem isBlank_of_mem_blanked {s : Segment} (hs : s.Shaped) (h : s.form? = none) : ∀ c ∈ s.blanked, isBlank c := by
  intro c hc
  cases s with
  | mark | word | number | string => cases h
  | blank d =>
    obtain rfl : c = d := by simpa [blanked, text] using hc
    exact hs
  | unexpected d =>
    obtain rfl : c = ' ' := by simpa [blanked] using hc
    rfl
  | openString | lineComment | blockComment | openComment =>
    rcases List.mem_cons.mp hc with rfl | hc
    · rfl
    · obtain rfl := List.eq_of_mem_replicate hc
      rfl

theorem lineBreaks_blanked {s : Segment} (hs : s.Shaped) : s.blanked.lineBreaks = s.text.lineBreaks := by
  cases s with
  | mark | word | number | string | blank => rfl
  | unexpected c =>
    have hbreak : c ≠ '\n' := by
      rintro rfl
      exact hs.1 rfl
    simp [blanked, text, Text.lineBreaks, hbreak]
  | openString | lineComment | blockComment | openComment => simp [blanked, Text.lineBreaks]

theorem blanked_ne_nil {s : Segment} (hs : s.Shaped) : s.blanked ≠ [] := by
  cases s with
  | mark | word | number | string | blank => exact hs.text_ne_nil
  | unexpected | openString | lineComment | blockComment | openComment => exact List.cons_ne_nil _ _

end Segment

/-! ## The text behind a token -/

/-- The overwritten text starts as before or with a blank. -/
theorem head_blanked {segs : List Segment} (hs : ∀ s ∈ segs, s.Shaped) {c : Char}
    (hc : c ∈ (segs.flatMap Segment.blanked).head?) : c ∈ (segs.flatMap Segment.text).head? ∨ isBlank c := by
  cases segs with
  | nil => exact absurd hc (by simp)
  | cons s segs =>
    have hshaped := hs s List.mem_cons_self
    obtain ⟨d, t, ht⟩ := List.exists_cons_of_ne_nil (Segment.blanked_ne_nil hshaped)
    obtain rfl : d = c := by simpa [ht] using hc
    cases hform : s.form? with
    | none => exact .inr (Segment.isBlank_of_mem_blanked hshaped hform d (by simp [ht]))
    | some f =>
      rw [Segment.blanked_of_form? hform] at ht
      exact .inl (by simp [ht])

theorem startsFraction_blanked {segs : List Segment} (hs : ∀ s ∈ segs, s.Shaped)
    (h : Segment.StartsFraction (segs.flatMap Segment.blanked)) : Segment.StartsFraction (segs.flatMap Segment.text) := by
  cases segs with
  | nil => exact h
  | cons s segs =>
    obtain ⟨hshaped, hlater⟩ := List.forall_mem_cons.mp hs
    obtain ⟨d, t, ht⟩ := List.exists_cons_of_ne_nil (Segment.blanked_ne_nil hshaped)
    obtain rfl : d = '.' := by
      obtain ⟨e, u, heq, -⟩ := h
      rw [List.flatMap_cons, ht, List.cons_append] at heq
      exact (List.cons.inj heq).1
    cases hform : s.form? with
    | none => exact absurd (Segment.isBlank_of_mem_blanked hshaped hform '.' (by simp [ht])) (by decide)
    | some f =>
      rw [Segment.blanked_of_form? hform] at ht
      obtain rfl := eq_point_of_head hshaped (by simp [ht])
      change Segment.StartsFraction ('.' :: segs.flatMap Segment.blanked) at h
      change Segment.StartsFraction ('.' :: segs.flatMap Segment.text)
      rw [startsFraction_point] at h ⊢
      obtain ⟨e, he, hdigit⟩ := h
      refine ⟨e, (head_blanked hlater he).resolve_right ?_, hdigit⟩
      exact fun hblank => not_isWordPart_of_isBlank hblank (isWordPart_of_isDigit hdigit)

theorem stopsBefore_blanked {s : Segment} {f : Form} {segs : List Segment} (hform : s.form? = some f)
    (hs : ∀ s ∈ segs, s.Shaped) (h : s.StopsBefore (segs.flatMap Segment.text)) :
    s.StopsBefore (segs.flatMap Segment.blanked) :=
  Segment.stopsBefore_of_head h (fun _ hc => (head_blanked hs hc).imp_right (Segment.endedBy_of_form? hform))
    fun _ => startsFraction_blanked hs

/-! ## All segments -/

/-- From any line on, the overwritten text has the tokens of the segments and no error. -/
theorem readings_blanked {segs : List Segment} (h : ReadBefore [] segs) (line : Nat) :
    tokensFrom line (segments (segs.flatMap Segment.blanked)) = tokensFrom line segs ∧
      errorsFrom line (segments (segs.flatMap Segment.blanked)) = [] := by
  induction segs generalizing line with
  | nil => simp [segments]
  | cons s segs ih =>
    obtain ⟨⟨hshaped, hstop⟩, hrest⟩ := h
    rw [List.append_nil] at hstop
    obtain ⟨htokens, herrors⟩ := ih hrest (line + s.text.lineBreaks)
    rw [List.flatMap_cons, tokensFrom_cons, Segment.token?_eq]
    cases hform : s.form? with
    | some f =>
      have hnext := Segment.segments_of_prescribed ⟨hshaped, stopsBefore_blanked hform (shaped_of_readBefore hrest) hstop⟩
      rw [Segment.blanked_of_form? hform, hnext, tokensFrom_cons, errorsFrom_cons, Segment.token?_eq, hform, htokens, herrors,
        Segment.error?_of_form? hform]
      exact ⟨rfl, rfl⟩
    | none =>
      rw [segments_blanks (Segment.isBlank_of_mem_blanked hshaped hform), tokensFrom_blanks, errorsFrom_blanks,
        Segment.lineBreaks_blanked hshaped, htokens, herrors]
      exact ⟨rfl, rfl⟩

theorem lineBreaks_flatMap_blanked {segs : List Segment} (hs : ∀ s ∈ segs, s.Shaped) :
    Text.lineBreaks (segs.flatMap Segment.blanked) = Text.lineBreaks (segs.flatMap Segment.text) := by
  induction segs with
  | nil => rfl
  | cons s segs ih =>
    obtain ⟨hshaped, hlater⟩ := List.forall_mem_cons.mp hs
    rw [List.flatMap_cons, List.flatMap_cons, Text.lineBreaks_append, Text.lineBreaks_append, ih hlater,
      Segment.lineBreaks_blanked hshaped]

/-- The source with all that a scan skips or reports overwritten. -/
def blanked (source : Text) : Text := (segments source).flatMap Segment.blanked

/-- Overwritten with blanks, the comments and the errors of a source leave its tokens as
    they are, on the lines where they are, and nothing is reported. -/
theorem scan_blanked (source : Text) : scan (blanked source) = ⟨(scan source).tokens, []⟩ := by
  obtain ⟨htokens, herrors⟩ := readings_blanked (readBefore_segments source) 1
  have hlines := lineBreaks_flatMap_blanked (shaped_of_readBefore (readBefore_segments source))
  rw [flatten_segments] at hlines
  rw [scan_eq, scan_eq, blanked, htokens, herrors, hlines]

example : blanked "1/**/.5@x//y\n\"z\n".toList = "1 .5 x \n \n".toList := by decide +kernel

end LoxFront
