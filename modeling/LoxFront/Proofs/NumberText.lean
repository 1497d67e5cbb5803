/-
  LoxFront.Proofs.NumberText — a number's text reads back as the number.

  A decimal is given back by its own digits (`ofDigits_digits`). A magnitude is the one
  nearest to its own value, as the grid around the value has the spacing of the magnitude's
  binade (`nearest_of_value`). The shortest text is chosen among decimals that read back,
  and the exact value is one of them; so whatever the search finds, it reads back
  (`nearest_shortest`), and a finite number's text is a number lexeme that stands for it
  (`wellFormed_numberText`).
-/

import Mathlib.Algebra.Group.Nat.Defs
import LoxFront.Proofs.Form

namespace LoxFront

/-! ## The digits of a decimal -/

theorem isDigit_of_mem_numeral {n : Nat} {c : Char} (h : c ∈ numeral n) : c.isDigit :=
  Nat.isDigit_of_mem_toDigits (by decide) (by decide) h

theorem isDigit_of_mem_zeroPadded {width : Nat} {t : Text} (ht : ∀ c ∈ t, c.isDigit) {c : Char}
    (h : c ∈ zeroPadded width t) : c.isDigit := by
  unfold zeroPadded List.leftpad at h
  rcases List.mem_append.mp h with hzero | hdigit
  · rw [List.eq_of_mem_replicate hzero]
    decide
  · exact ht c hdigit

theorem numeralValue_append (t u : Text) :
    numeralValue (t ++ u) = 10 ^ u.length * numeralValue t + numeralValue u := by
  unfold numeralValue
  rw [Nat.ofDigitChars_append, Nat.ofDigitChars_eq_ofDigitChars_zero]

theorem numeralValue_zeroPadded (width : Nat) (t : Text) : numeralValue (zeroPadded width t) = numeralValue t := by
  unfold numeralValue zeroPadded List.leftpad
  rw [Nat.ofDigitChars_append, Nat.ofDigitChars_replicate_zero, Nat.mul_zero]

namespace Decimal

theorem length_fractionDigits (d : Decimal) : d.fractionDigits.length = d.places := by
  unfold fractionDigits
  split
  · next h => rw [h, List.length_nil]
  · next h =>
    have hlt : d.coefficient % Nat.pow 10 d.places < 10 ^ d.places := Nat.mod_lt _ (Nat.pow_pos (by decide))
    have hlen := (Nat.length_toDigits_le_iff (by decide) (Nat.pos_of_ne_zero h)).mpr hlt
    rw [zeroPadded, List.length_leftpad]
    exact Nat.max_eq_left hlen

theorem numeralValue_fractionDigits (d : Decimal) :
    numeralValue d.fractionDigits = d.coefficient % 10 ^ d.places := by
  unfold fractionDigits
  split
  · next h =>
    rw [h, Nat.pow_zero, Nat.mod_one]
    rfl
  · rw [numeralValue_zeroPadded, numeralValue_numeral]
    rfl

/-- A decimal's digits stand for it. -/
theorem ofDigits_digits (d : Decimal) : ofDigits d.wholeDigits d.fractionDigits = d := by
  have hvalue : numeralValue (d.wholeDigits ++ d.fractionDigits) = d.coefficient := by
    rw [numeralValue_append, length_fractionDigits, numeralValue_fractionDigits, wholeDigits, numeralValue_numeral]
    exact Nat.div_add_mod d.coefficient (10 ^ d.places)
  rw [ofDigits, hvalue, length_fractionDigits]

theorem isDigit_of_mem_wholeDigits {d : Decimal} {c : Char} (h : c ∈ d.wholeDigits) : c.isDigit :=
  isDigit_of_mem_numeral h

theorem isDigit_of_mem_fractionDigits {d : Decimal} {c : Char} (h : c ∈ d.fractionDigits) : c.isDigit := by
  unfold fractionDigits at h
  split at h
  · cases h
  · exact isDigit_of_mem_zeroPadded (fun _ => isDigit_of_mem_numeral) h

end Decimal

/-! ## A magnitude is nearest to its value -/

namespace Magnitude

/-- The ranks of a binade follow those of the binades below it. -/
theorem rank_eq (m : Magnitude) : (m.binade - 1) * 2 ^ 52 + m.significand = m.rank := by
  have hbinade : m.binade = m.rank / 2 ^ 52 := rfl
  have hsignificand : m.significand = if m.binade = 0 then m.rank else 2 ^ 52 + m.rank % 2 ^ 52 := rfl
  rw [hsignificand]
  split <;> omega

theorem log2_leading {k r s : Nat} (h : r < 2 ^ k) : ((2 ^ k + r) * 2 ^ s).log2 = k + s := by
  have hk : 0 < 2 ^ k := Nat.two_pow_pos k
  have hs : 0 < 2 ^ s := Nat.two_pow_pos s
  have hpos : 0 < (2 ^ k + r) * 2 ^ s := Nat.mul_pos (by omega) hs
  rw [Nat.log2_eq_iff (Nat.ne_of_gt hpos), Nat.pow_succ, Nat.pow_add, Nat.mul_right_comm]
  constructor
  · exact Nat.mul_le_mul_right _ (Nat.le_add_right _ _)
  · exact Nat.mul_lt_mul_of_pos_right (by omega) hs

/-- The spacing around a magnitude's value is that of its binade. -/
theorem spacing_units (m : Magnitude) : spacing m.units = m.binade - 1 := by
  have hunits : m.units = m.significand * 2 ^ (m.binade - 1) := rfl
  have hsignificand : m.significand = if m.binade = 0 then m.rank else 2 ^ 52 + m.rank % 2 ^ 52 := rfl
  unfold spacing
  rw [hunits, hsignificand]
  split
  · next h =>
    have hlt : m.rank < 2 ^ 52 := Nat.lt_of_div_eq_zero (by decide) h
    have hlog : m.rank.log2 ≤ 52 := by
      by_cases hzero : m.rank = 0
      · simp [hzero]
      · exact Nat.le_of_lt ((Nat.log2_lt hzero).mpr hlt)
    simp [h, hlog]
  · rw [log2_leading (Nat.mod_lt _ (by decide)), Nat.add_sub_cancel_left]

/-- A quotient that has a magnitude's value is rounded to this magnitude. -/
theorem nearest_of_value {m : Magnitude} {num den : Nat} (hden : 0 < den)
    (h : num * Nat.pow 2 1074 = m.units * den) : nearest num den = m := by
  have hunits : m.units = m.significand * Nat.pow 2 (m.binade - 1) := rfl
  have hscaled : m.units * den = m.significand * (den * Nat.pow 2 (m.binade - 1)) := by
    rw [hunits, Nat.mul_assoc, Nat.mul_comm den]
  have hgrid : 0 < den * Nat.pow 2 (m.binade - 1) := Nat.mul_pos hden (Nat.two_pow_pos _)
  have hrank : (m.binade - 1) * Nat.pow 2 52 + m.significand = m.rank := rank_eq m
  unfold nearest
  simp only [h, Nat.mul_div_cancel _ hden, spacing_units]
  rw [hscaled, roundHalfEven_mul _ hgrid, hrank]
  exact ext_rank (Nat.min_eq_left m.rank_le)

end Magnitude

theorem Decimal.nearest_of_value {d : Decimal} {m : Magnitude}
    (h : d.coefficient * Nat.pow 2 1074 = m.units * Nat.pow 10 d.places) : d.nearest = m :=
  Magnitude.nearest_of_value (Nat.pow_pos (by decide)) h

namespace Magnitude

theorem mul_pow_five_mul_pow_two (units n : Nat) : units * Nat.pow 5 n * Nat.pow 2 n = units * Nat.pow 10 n := by
  show units * 5 ^ n * 2 ^ n = units * 10 ^ n
  rw [Nat.mul_assoc, ← Nat.mul_pow]

theorem nearest_exact (m : Magnitude) : m.exact.nearest = m := by
  apply Decimal.nearest_of_value
  simp only [exact]
  -- no power is to be computed
  generalize 1074 = n
  exact mul_pow_five_mul_pow_two m.units n

theorem nearest_shortest (m : Magnitude) : m.shortest.nearest = m := by
  unfold shortest
  cases h : m.grids.findSome? m.onGrid? with
  | none => exact nearest_exact m
  | some d =>
    obtain ⟨g, -, hg⟩ := List.exists_of_findSome?_eq_some h
    exact nearest_onGrid? hg

end Magnitude

/-- A finite number's text is a lexeme that stands for the number. -/
theorem wellFormed_numberText {m : Magnitude} (h : m.rank ≠ infinityRank) :
    WellFormed ⟨.number, (Binary64.positive m).text, some (.number (.positive m))⟩ := by
  have htext : (Binary64.positive m).text = m.shortest.text := by
    simp [Binary64.positive, Binary64.text, Binary64.signText, Binary64.magnitudeText, h]
  have hnumber : WellFormed ⟨.number, m.shortest.text,
      some (.number (.positive (Decimal.ofDigits m.shortest.wholeDigits m.shortest.fractionDigits).nearest))⟩ :=
    .number Nat.toDigits_ne_nil (fun _ => Decimal.isDigit_of_mem_wholeDigits) fun _ => Decimal.isDigit_of_mem_fractionDigits
  rw [Decimal.ofDigits_digits, Magnitude.nearest_shortest] at hnumber
  rw [htext]
  exact hnumber

end LoxFront
