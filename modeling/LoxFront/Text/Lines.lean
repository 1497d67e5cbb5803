/-
  LoxFront.Text.Lines — what the lines of a byte stream are.

  A line goes up to a line feed, and the last one may lack it. Every stream has its lines
  and no others (`isLines_iff`): its first line is what is in front of its first line feed,
  with the line feed (`cutLine_append`).
-/

import LoxFront.Text

namespace LoxFront

/-- A line with what comes behind it. -/
structure IsFirstLine (line rest : List UInt8) : Prop where
  nonempty : line ≠ []
  inner : lineFeed ∉ line.dropLast
  ended : rest = [] ∨ line.getLast? = some lineFeed

/-- One behind the other, the lines are the input. A line feed is nothing but the last byte
    of a line, and of every line but the last one it is. -/
structure IsLines (input : List UInt8) (lines : List (List UInt8)) : Prop where
  whole : lines.flatten = input
  nonempty : ∀ line ∈ lines, line ≠ []
  inner : ∀ line ∈ lines, lineFeed ∉ line.dropLast
  ended : ∀ line ∈ lines.dropLast, line.getLast? = some lineFeed

theorem isLines_nil : IsLines [] [] := ⟨rfl, by simp, by simp, by simp⟩

theorem isLines_cons_iff {input line : List UInt8} {lines : List (List UInt8)} :
    IsLines input (line :: lines) ↔
      input = line ++ lines.flatten ∧ IsFirstLine line lines.flatten ∧ IsLines lines.flatten lines := by
  constructor
  · intro h
    refine ⟨h.whole.symm, ⟨h.nonempty _ List.mem_cons_self, h.inner _ List.mem_cons_self, ?_⟩,
      ⟨rfl, fun l hl => h.nonempty l (List.mem_cons_of_mem _ hl), fun l hl => h.inner l (List.mem_cons_of_mem _ hl), ?_⟩⟩
    · cases lines with
      | nil => exact .inl rfl
      | cons next lines => exact .inr (h.ended line List.mem_cons_self)
    · intro l hl
      cases lines with
      | nil => cases hl
      | cons next lines => exact h.ended l (List.mem_cons_of_mem _ hl)
  · rintro ⟨rfl, hfirst, hrest⟩
    refine ⟨rfl, List.forall_mem_cons.mpr ⟨hfirst.nonempty, hrest.nonempty⟩,
      List.forall_mem_cons.mpr ⟨hfirst.inner, hrest.inner⟩, ?_⟩
    cases lines with
    | nil => simp
    | cons next lines =>
      have hnext : (next :: lines).flatten ≠ [] := by simp [hrest.nonempty next List.mem_cons_self]
      exact List.forall_mem_cons.mpr ⟨hfirst.ended.resolve_left hnext, hrest.ended⟩

/-! ## Cutting -/

/-- The first line and what comes behind it. -/
def cutLine : List UInt8 → List UInt8 × List UInt8
  | [] => ([], [])
  | b :: rest => if b = lineFeed then ([b], rest) else (b :: (cutLine rest).1, (cutLine rest).2)

theorem append_cutLine (input : List UInt8) : (cutLine input).1 ++ (cutLine input).2 = input := by
  induction input with
  | nil => rfl
  | cons b rest ih =>
    rw [cutLine]
    split
    · rfl
    · rw [List.cons_append, ih]

theorem cutLine_append {line rest : List UInt8} (h : IsFirstLine line rest) : cutLine (line ++ rest) = (line, rest) := by
  obtain ⟨hne, hinner, hended⟩ := h
  induction line with
  | nil => exact absurd rfl hne
  | cons b line ih =>
    rw [List.cons_append, cutLine]
    cases line with
    | nil =>
      split
      · rfl
      · next hb =>
        have hrest : rest = [] := hended.resolve_right (by simpa using hb)
        rw [hrest]
        rfl
    | cons c line =>
      rw [List.dropLast_cons_cons, List.mem_cons, not_or] at hinner
      rw [if_neg (Ne.symm hinner.1), ih (List.cons_ne_nil _ _) hinner.2 hended]

theorem isFirstLine_cutLine {input : List UInt8} (h : input ≠ []) : IsFirstLine (cutLine input).1 (cutLine input).2 := by
  induction input with
  | nil => exact absurd rfl h
  | cons b rest ih =>
    rw [cutLine]
    split
    · next hb => exact ⟨List.cons_ne_nil _ _, by simp, .inr (by simp [hb])⟩
    · next hb =>
      by_cases hrest : rest = []
      · subst hrest
        exact ⟨List.cons_ne_nil _ _, by simp [cutLine], .inl rfl⟩
      · obtain ⟨hne, hinner, hended⟩ := ih hrest
        refine ⟨List.cons_ne_nil _ _, ?_, ?_⟩
        · rw [List.dropLast_cons_of_ne_nil hne, List.mem_cons, not_or]
          exact ⟨Ne.symm hb, hinner⟩
        · rwa [List.getLast?_cons_of_ne_nil hne]

theorem length_cutLine {input : List UInt8} (h : input ≠ []) : (cutLine input).2.length < input.length := by
  have hlength := congrArg List.length (append_cutLine input)
  have hline : 0 < (cutLine input).1.length := List.length_pos_iff.mpr (isFirstLine_cutLine h).nonempty
  rw [List.length_append] at hlength
  omega

/-! ## All lines -/

theorem splitLines_cutLine {input : List UInt8} (h : input ≠ []) :
    splitLines input = (cutLine input).1 :: splitLines (cutLine input).2 := by
  induction input with
  | nil => exact absurd rfl h
  | cons b rest ih =>
    rw [splitLines, cutLine]
    split
    · rfl
    · cases rest with
      | nil => rfl
      | cons c rest => rw [ih (List.cons_ne_nil _ _)]

theorem isLines_splitLines (input : List UInt8) : IsLines input (splitLines input) := by
  by_cases h : input = []
  · subst h
    exact isLines_nil
  · rw [splitLines_cutLine h, isLines_cons_iff, flatten_splitLines]
    exact ⟨(append_cutLine input).symm, isFirstLine_cutLine h, isLines_splitLines (cutLine input).2⟩
termination_by input.length
decreasing_by exact length_cutLine h

theorem isLines_iff {input : List UInt8} {lines : List (List UInt8)} : IsLines input lines ↔ lines = splitLines input := by
  constructor
  · intro h
    induction lines generalizing input with
    | nil =>
      obtain rfl : input = [] := h.whole.symm
      rfl
    | cons line lines ih =>
      obtain ⟨rfl, hfirst, hrest⟩ := isLines_cons_iff.mp h
      have hne : line ++ lines.flatten ≠ [] := by simp [hfirst.nonempty]
      rw [splitLines_cutLine hne, cutLine_append hfirst, ← ih hrest]
  · rintro rfl
    exact isLines_splitLines input

instance (input : List UInt8) (lines : List (List UInt8)) : Decidable (IsLines input lines) :=
  decidable_of_iff (lines = splitLines input) isLines_iff.symm

end LoxFront
