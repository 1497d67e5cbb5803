/-
  LoxFront.Text.Class — the classes of characters that lexemes are made of.

  Letters and digits are the ASCII ones; every other character outside the classes and
  the marks is unexpected. No character starts a word and is a digit or a blank as well.
  A run of a class is all that `takeWhile` takes in front of a text that the class does
  not go on in (`takeWhile_run`, `dropWhile_run`).
-/

import LoxFront.Text

namespace LoxFront

def isWordStart (c : Char) : Bool := c.isAlpha || c == '_'

def isWordPart (c : Char) : Bool := isWordStart c || c.isDigit

def isBlank (c : Char) : Bool := c == ' ' || c == '\t' || c == '\r' || c == '\n'

theorem isWordStart_iff {c : Char} :
    isWordStart c ↔ ('A'.toNat ≤ c.toNat ∧ c.toNat ≤ 'Z'.toNat) ∨ ('a'.toNat ≤ c.toNat ∧ c.toNat ≤ 'z'.toNat) ∨ c = '_' := by
  change (decide (c.val ≥ 'A'.val ∧ c.val ≤ 'Z'.val) || (c.val ≥ 'a'.val && c.val ≤ 'z'.val) || c == '_') = true ↔ _
  simp only [Bool.or_eq_true, Bool.and_eq_true, decide_eq_true_eq, beq_iff_eq, or_assoc, ge_iff_le, UInt32.le_iff_toNat_le]
  rfl

theorem not_isWordStart_of_isDigit {c : Char} (h : c.isDigit) : ¬ isWordStart c := by
  obtain ⟨-, hnine⟩ : 48 ≤ c.toNat ∧ c.toNat ≤ 57 := Char.isDigit_iff_toNat.mp h
  rw [isWordStart_iff]
  rintro (⟨hupper, -⟩ | ⟨hlower, -⟩ | rfl)
  · exact absurd (Nat.le_trans hupper hnine) (by decide)
  · exact absurd (Nat.le_trans hlower hnine) (by decide)
  · exact absurd hnine (by decide)

theorem isBlank_iff {c : Char} : isBlank c ↔ c = ' ' ∨ c = '\t' ∨ c = '\r' ∨ c = '\n' := by
  simp [isBlank, or_assoc]

theorem not_isWordPart_of_isBlank {c : Char} (h : isBlank c) : ¬ isWordPart c := by
  rcases isBlank_iff.mp h with rfl | rfl | rfl | rfl <;> decide

theorem isWordPart_of_isWordStart {c : Char} (h : isWordStart c) : isWordPart c := by simp [isWordPart, h]

theorem isWordPart_of_isDigit {c : Char} (h : c.isDigit) : isWordPart c := by simp [isWordPart, h]

/-! ## Runs -/

variable {p : Char → Bool} {t r : Text}

theorem takeWhile_run (ht : ∀ c ∈ t, p c) (hr : ∀ c ∈ r.head?, ¬ p c) : (t ++ r).takeWhile p = t := by
  rw [List.takeWhile_append_of_pos ht]
  cases r with
  | nil => simp
  | cons c r => simp [List.takeWhile_cons_of_neg (hr c rfl)]

theorem dropWhile_run (ht : ∀ c ∈ t, p c) (hr : ∀ c ∈ r.head?, ¬ p c) : (t ++ r).dropWhile p = r := by
  rw [List.dropWhile_append_of_pos ht]
  cases r with
  | nil => rfl
  | cons c r => exact List.dropWhile_cons_of_neg (hr c rfl)

theorem takeWhile_ne_run {d : Char} (ht : d ∉ t) (hr : ∀ c ∈ r.head?, c = d) : (t ++ r).takeWhile (· ≠ d) = t :=
  takeWhile_run (fun _ hc => decide_eq_true (ne_of_mem_of_not_mem hc ht)) (fun c hc => by simpa using hr c hc)

theorem dropWhile_ne_run {d : Char} (ht : d ∉ t) (hr : ∀ c ∈ r.head?, c = d) : (t ++ r).dropWhile (· ≠ d) = r :=
  dropWhile_run (fun _ hc => decide_eq_true (ne_of_mem_of_not_mem hc ht)) (fun c hc => by simpa using hr c hc)

theorem mem_takeWhile {c : Char} (h : c ∈ t.takeWhile p) : p c := List.all_eq_true.mp List.all_takeWhile c h

theorem not_of_head_dropWhile {c : Char} (h : c ∈ (t.dropWhile p).head?) : ¬ p c := by
  have hne : t.dropWhile p ≠ [] := by
    intro hnil
    simp [hnil] at h
  have hhead := List.head_dropWhile_not p hne
  rw [Option.mem_def, List.head?_eq_some_head hne, Option.some.injEq] at h
  rw [← h, hhead]
  exact Bool.false_ne_true

end LoxFront
