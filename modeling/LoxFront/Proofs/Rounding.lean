/-
  LoxFront.Proofs.Rounding — the magnitude nearest to a decimal number is the double that
  it has to be.

  Ranks count the magnitudes upwards (`strictMono_unitsAt`), so what rounding decides is
  which midpoints of neighbours the value is above. It is above the midpoint of `k` and
  `k + 1`, or on it with `k` odd, if and only if the nearest magnitude's rank is above `k`
  (`lt_nearestRank_iff`, `IsRounded`). Values in order are so rounded in order
  (`rank_mono`), the midpoint behind zero and the one in front of infinity say what is
  rounded to these (`zero_iff`, `infinite_iff`), and of any two magnitudes the rounded one
  is nearer, or as near and even (`nearer`).

  `IsNearest` says the same without ranks and midpoints, of all rationals that are doubles.
  It holds of one magnitude only (`eq_of_isNearest`).
-/

import Mathlib.Algebra.Order.Ring.Abs
import Mathlib.Data.Rat.Cast.Order
import Mathlib.Tactic.FieldSimp
import Mathlib.Tactic.Linarith
import Mathlib.Tactic.NormNum
import Mathlib.Tactic.Ring
import LoxFront.Proofs.NumberText

namespace LoxFront

/-! ## Halves to the even number -/

theorem lt_roundHalfEven_iff {num den j : Nat} (hden : 0 < den) :
    j < roundHalfEven num den ↔ (2 * j + 1) * den < 2 * num ∨ (2 * j + 1) * den = 2 * num ∧ j % 2 = 1 := by
  have hsplit : num / den * den + num % den = num := Nat.div_add_mod' num den
  have hrest : num % den < den := Nat.mod_lt num hden
  have hround : roundHalfEven num den =
      if 2 * (num % den) < den ∨ 2 * (num % den) = den ∧ num / den % 2 = 0 then num / den else num / den + 1 := rfl
  have hmidpoint : (2 * j + 1) * den = 2 * (j * den) + den := by ring
  rw [hround, hmidpoint]
  rcases Nat.lt_trichotomy j (num / den) with hbelow | rfl | habove
  · have hle : (j + 1) * den ≤ num / den * den := Nat.mul_le_mul_right den hbelow
    rw [Nat.add_mul, Nat.one_mul] at hle
    refine iff_of_true ?_ (.inl (by omega))
    split <;> omega
  · split <;> omega
  · have hle : (num / den + 1) * den ≤ j * den := Nat.mul_le_mul_right den habove
    rw [Nat.add_mul, Nat.one_mul] at hle
    refine iff_of_false ?_ (by omega)
    split <;> omega

theorem roundHalfEven_le {num den n : Nat} (hden : 0 < den) (h : num < n * den) : roundHalfEven num den ≤ n := by
  rw [← Nat.not_lt, lt_roundHalfEven_iff hden]
  have hmidpoint : (2 * n + 1) * den = 2 * (n * den) + den := by ring
  omega

theorem le_roundHalfEven {num den n : Nat} (hden : 0 < den) (h : n * den ≤ num) : n ≤ roundHalfEven num den := by
  cases n with
  | zero => exact Nat.zero_le _
  | succ n =>
    rw [Nat.succ_le_iff, lt_roundHalfEven_iff hden]
    have hmidpoint : (2 * n + 1) * den + den = 2 * ((n + 1) * den) := by ring
    omega

namespace Magnitude

/-! ## Ranks and their units -/

/-- The value of a rank in units, infinity's and those above it included. -/
def unitsAt (rank : Nat) : Nat :=
  (if rank / 2 ^ 52 = 0 then rank else 2 ^ 52 + rank % 2 ^ 52) * 2 ^ (rank / 2 ^ 52 - 1)

/-- The points of a grid, the first behind the binade included, are the ranks of that binade. -/
theorem unitsAt_grid {s n : Nat} (hle : n ≤ 2 ^ 53) (hs : s = 0 ∨ 2 ^ 52 ≤ n) :
    unitsAt (s * 2 ^ 52 + n) = n * 2 ^ s := by
  unfold unitsAt
  by_cases hsubnormal : n < 2 ^ 52
  · obtain rfl : s = 0 := by omega
    have hbinade : (0 * 2 ^ 52 + n) / 2 ^ 52 = 0 := by omega
    rw [hbinade, if_pos rfl]
    simp
  by_cases hcarry : n = 2 ^ 53
  · subst hcarry
    have hbinade : (s * 2 ^ 52 + 2 ^ 53) / 2 ^ 52 = s + 2 := by omega
    have hfraction : (s * 2 ^ 52 + 2 ^ 53) % 2 ^ 52 = 0 := by omega
    rw [hbinade, hfraction, if_neg (by omega), show s + 2 - 1 = s + 1 from rfl, Nat.pow_succ]
    ring
  · have hbinade : (s * 2 ^ 52 + n) / 2 ^ 52 = s + 1 := by omega
    have hfraction : 2 ^ 52 + (s * 2 ^ 52 + n) % 2 ^ 52 = n := by omega
    rw [hbinade, hfraction, if_neg (by omega), Nat.add_sub_cancel]

theorem exists_grid (rank : Nat) : ∃ s n, rank = s * 2 ^ 52 + n ∧ n < 2 ^ 53 ∧ (s = 0 ∨ 2 ^ 52 ≤ n) :=
  ⟨rank / 2 ^ 52 - 1, rank - (rank / 2 ^ 52 - 1) * 2 ^ 52, by omega, by omega, by omega⟩

theorem strictMono_unitsAt : StrictMono unitsAt := by
  refine strictMono_nat_of_lt_succ fun rank => ?_
  obtain ⟨s, n, rfl, hlt, hs⟩ := exists_grid rank
  rw [unitsAt_grid hlt.le hs, Nat.add_assoc, unitsAt_grid hlt (by omega)]
  exact Nat.mul_lt_mul_of_pos_right (Nat.lt_succ_self n) (Nat.two_pow_pos s)

/-! ## Rounding is decided by midpoints -/

theorem spacing_spec (units : Nat) :
    units < 2 ^ 53 * 2 ^ spacing units ∧ (spacing units = 0 ∨ 2 ^ 52 * 2 ^ spacing units ≤ units) := by
  rw [← Nat.pow_add, ← Nat.pow_add]
  unfold spacing
  constructor
  · exact Nat.lt_of_lt_of_le Nat.lt_log2_self (Nat.pow_le_pow_right (by decide) (by omega))
  · by_cases hsmall : units.log2 ≤ 52
    · exact .inl (by omega)
    · have hne : units ≠ 0 := by
        rintro rfl
        simp at hsmall
      refine .inr (Nat.le_trans (Nat.pow_le_pow_right (by decide) ?_) (Nat.log2_self_le hne))
      omega

/-- The rank nearest to `scaled / den` units, were there no end to the ranks. -/
def nearestRank (scaled den : Nat) : Nat :=
  spacing (scaled / den) * 2 ^ 52 + roundHalfEven scaled (den * 2 ^ spacing (scaled / den))

theorem rank_nearest (num den : Nat) :
    (nearest num den).rank = min (nearestRank (num * Nat.pow 2 1074) den) infinityRank := rfl

theorem lt_nearestRank_iff {scaled den k : Nat} (hden : 0 < den) :
    k < nearestRank scaled den ↔
      den * (unitsAt k + unitsAt (k + 1)) < 2 * scaled ∨
        den * (unitsAt k + unitsAt (k + 1)) = 2 * scaled ∧ k % 2 = 1 := by
  unfold nearestRank
  obtain ⟨hupper, hlower⟩ := spacing_spec (scaled / den)
  generalize spacing (scaled / den) = s at hupper hlower
  have hstep : 0 < den * 2 ^ s := Nat.mul_pos hden (Nat.two_pow_pos s)
  rw [Nat.div_lt_iff_lt_mul hden, Nat.mul_assoc, Nat.mul_comm (2 ^ s)] at hupper
  rw [Nat.le_div_iff_mul_le hden, Nat.mul_assoc, Nat.mul_comm (2 ^ s)] at hlower
  have hcarry := roundHalfEven_le hstep hupper
  have hfirst : s = 0 ∨ 2 ^ 52 ≤ roundHalfEven scaled (den * 2 ^ s) := hlower.imp_right (le_roundHalfEven hstep)
  -- Below the value's binade and above it, the side on which the midpoint is is clear.
  by_cases hbelow : s ≠ 0 ∧ k < s * 2 ^ 52 + 2 ^ 52
  · obtain ⟨hs, hk⟩ := hbelow
    have hfloor : unitsAt (s * 2 ^ 52 + 2 ^ 52) = 2 ^ 52 * 2 ^ s := unitsAt_grid (by decide) (.inr (Nat.le_refl _))
    have hnext : unitsAt (k + 1) ≤ 2 ^ 52 * 2 ^ s := hfloor ▸ strictMono_unitsAt.monotone hk
    have hlt : unitsAt k < unitsAt (k + 1) := strictMono_unitsAt (Nat.lt_succ_self k)
    have hsum : den * (unitsAt k + unitsAt (k + 1)) < den * (2 * (2 ^ 52 * 2 ^ s)) :=
      Nat.mul_lt_mul_of_pos_left (by omega) hden
    have hscaled : den * (2 * (2 ^ 52 * 2 ^ s)) = 2 * (2 ^ 52 * (den * 2 ^ s)) := by ring
    refine iff_of_true (by omega) (.inl ?_)
    omega
  by_cases habove : s * 2 ^ 52 + 2 ^ 53 ≤ k
  · have hceiling : unitsAt (s * 2 ^ 52 + 2 ^ 53) = 2 ^ 53 * 2 ^ s := unitsAt_grid (Nat.le_refl _) (.inr (by decide))
    have hunits : 2 ^ 53 * 2 ^ s ≤ unitsAt k := hceiling ▸ strictMono_unitsAt.monotone habove
    have hlt : unitsAt k < unitsAt (k + 1) := strictMono_unitsAt (Nat.lt_succ_self k)
    have hsum : den * (2 * (2 ^ 53 * 2 ^ s)) ≤ den * (unitsAt k + unitsAt (k + 1)) := Nat.mul_le_mul_left den (by omega)
    have hscaled : den * (2 * (2 ^ 53 * 2 ^ s)) = 2 * (2 ^ 53 * (den * 2 ^ s)) := by ring
    refine iff_of_false (by omega) ?_
    omega
  have hgrid : s * 2 ^ 52 ≤ k := by omega
  obtain ⟨j, rfl⟩ := Nat.exists_eq_add_of_le hgrid
  have hunits : unitsAt (s * 2 ^ 52 + j) = j * 2 ^ s := unitsAt_grid (by omega) (by omega)
  have hnext : unitsAt (s * 2 ^ 52 + (j + 1)) = (j + 1) * 2 ^ s := unitsAt_grid (by omega) (by omega)
  have hmidpoint : den * (j * 2 ^ s + (j + 1) * 2 ^ s) = (2 * j + 1) * (den * 2 ^ s) := by ring
  rw [Nat.add_assoc, hunits, hnext, hmidpoint, Nat.add_lt_add_iff_left, lt_roundHalfEven_iff hstep]
  omega

/-! ## Values -/

def valueAt (rank : Nat) : ℚ := unitsAt rank / 2 ^ 1074

/-- The value of a finite magnitude. Infinity has none; this is 2 ^ 1024 there. -/
def value (m : Magnitude) : ℚ := m.units / 2 ^ 1074

/-- Between the rank and the next one. -/
def midpoint (rank : Nat) : ℚ := (valueAt rank + valueAt (rank + 1)) / 2

theorem value_eq (m : Magnitude) : m.value = valueAt m.rank := rfl

theorem strictMono_valueAt : StrictMono valueAt := by
  intro j k h
  exact div_lt_div_of_pos_right (Nat.cast_lt.mpr (strictMono_unitsAt h)) (by positivity)

theorem compare_midpoint (num : Nat) {den : Nat} (hden : 0 < den) (k : Nat) :
    (midpoint k < (num : ℚ) / den ↔ den * (unitsAt k + unitsAt (k + 1)) < 2 * (num * Nat.pow 2 1074)) ∧
      (midpoint k = (num : ℚ) / den ↔ den * (unitsAt k + unitsAt (k + 1)) = 2 * (num * Nat.pow 2 1074)) := by
  have hden' : (0 : ℚ) < den := Nat.cast_pos.mpr hden
  have hunit : ((Nat.pow 2 1074 : Nat) : ℚ) = 2 ^ 1074 := by
    -- no power is to be computed
    generalize 1074 = n
    exact Nat.cast_pow 2 n
  have hmidpoint : midpoint k = ((unitsAt k + unitsAt (k + 1) : Nat) : ℚ) / (2 ^ 1074 * 2) := by
    rw [midpoint, valueAt, valueAt, ← add_div, div_div, Nat.cast_add]
  have hcross : (num : ℚ) * (2 ^ 1074 * 2) = ((2 * (num * Nat.pow 2 1074) : Nat) : ℚ) := by
    rw [Nat.cast_mul, Nat.cast_mul, hunit, Nat.cast_ofNat, mul_comm 2, mul_assoc]
  rw [hmidpoint, div_lt_div_iff₀ (by positivity) hden', div_eq_div_iff (by positivity) hden'.ne', hcross, ← Nat.cast_mul,
    Nat.cast_lt, Nat.cast_inj, Nat.mul_comm]
  exact ⟨Iff.rfl, Iff.rfl⟩

theorem midpoint_zero : midpoint 0 = 1 / 2 ^ 1075 := by
  have hzero : unitsAt 0 = 0 := rfl
  have hone : unitsAt (0 + 1) = 1 := rfl
  have hhalf : (2 : ℚ) ^ 1075 = 2 ^ 1074 * 2 := pow_succ 2 1074
  rw [midpoint, valueAt, valueAt, hzero, hone, hhalf, Nat.cast_zero, zero_div, zero_add, div_div, Nat.cast_one]

theorem midpoint_last : midpoint (infinityRank - 1) = 2 ^ 1024 - 2 ^ 970 := by
  have hrank : infinityRank - 1 = 2045 * 2 ^ 52 + (2 ^ 53 - 1) := by decide
  have hlast : unitsAt (infinityRank - 1) = (2 ^ 53 - 1) * 2 ^ 2045 := by
    rw [hrank, unitsAt_grid (by decide) (by decide)]
  have hinfinity : unitsAt (infinityRank - 1 + 1) = 2 ^ 53 * 2 ^ 2045 := by
    rw [hrank, Nat.add_assoc, Nat.sub_add_cancel (by decide), unitsAt_grid (by decide) (by decide)]
  have htop : (2 : ℚ) ^ 1024 = 2 ^ 54 * 2 ^ 970 := by rw [← pow_add]
  have hpower : (2 : ℚ) ^ 2045 = 2 ^ 970 * 2 ^ 1074 * 2 := by rw [← pow_add, ← pow_succ]
  rw [midpoint, valueAt, valueAt, hlast, hinfinity, Nat.cast_mul, Nat.cast_mul, Nat.cast_pow, Nat.cast_ofNat, hpower, htop]
  generalize (2 : ℚ) ^ 970 = u
  have hv : (2 : ℚ) ^ 1074 ≠ 0 := by positivity
  generalize (2 : ℚ) ^ 1074 = v at hv
  field_simp
  norm_num

/-! ## What rounding by midpoints gives -/

/-- The ranks below this one are those whose midpoint the value is above. A value on a
    midpoint belongs to the even one of the two ranks. -/
def IsRounded (m : Magnitude) (q : ℚ) : Prop :=
  ∀ k < infinityRank, k < m.rank ↔ midpoint k < q ∨ midpoint k = q ∧ k % 2 = 1

theorem closer_iff (q c a : ℚ) : |q - c| < |q - a| ↔ (a - c) * (2 * q - (c + a)) < 0 := by
  have hsquares : (q - c) ^ 2 - (q - a) ^ 2 = (a - c) * (2 * q - (c + a)) := by ring
  rw [← sq_lt_sq, ← sub_neg, hsquares]

namespace IsRounded

variable {m n : Magnitude} {p q : ℚ}

theorem rank_mono (hm : m.IsRounded p) (hn : n.IsRounded q) (h : p ≤ q) : m.rank ≤ n.rank := by
  by_contra hlt
  rw [Nat.not_le] at hlt
  have hfinite : n.rank < infinityRank := Nat.lt_of_lt_of_le hlt m.rank_le
  refine Nat.lt_irrefl n.rank ((hn _ hfinite).mpr ?_)
  rcases (hm _ hfinite).mp hlt with habove | ⟨hon, hodd⟩
  · exact .inl (habove.trans_le h)
  · rcases h.lt_or_eq with hpq | rfl
    · exact .inl (hon.trans_lt hpq)
    · exact .inr ⟨hon, hodd⟩

theorem infinite_iff (hm : m.IsRounded q) : m.rank = infinityRank ↔ 2 ^ 1024 - 2 ^ 970 ≤ q := by
  have hlast := hm (infinityRank - 1) (by decide)
  have hodd : (infinityRank - 1) % 2 = 1 := by decide
  have hle := m.rank_le
  have htop : m.rank = infinityRank ↔ infinityRank - 1 < m.rank := by omega
  rw [htop, hlast, midpoint_last, le_iff_lt_or_eq]
  simp only [hodd, and_true]

theorem zero_iff (hm : m.IsRounded q) : m.rank = 0 ↔ q ≤ 1 / 2 ^ 1075 := by
  have hfirst := hm 0 (by decide)
  rw [midpoint_zero] at hfirst
  have hnot : m.rank = 0 ↔ ¬ 0 < m.rank := by omega
  rw [hnot, hfirst, ← not_lt]
  simp

/-- The value is on this side of the middle between the magnitude and any lower one, or on
    the middle. -/
theorem sum_of_lt (hm : m.IsRounded q) {j : Nat} (h : j < m.rank) :
    valueAt m.rank + valueAt j < 2 * q ∨ valueAt m.rank + valueAt j = 2 * q ∧ m.rank % 2 = 0 ∧ j % 2 = 1 := by
  have hle := m.rank_le
  obtain ⟨k, hk⟩ : ∃ k, m.rank = k + 1 := ⟨m.rank - 1, by omega⟩
  have hcut := (hm k (by omega)).mp (by omega)
  have hj : valueAt j ≤ valueAt k := strictMono_valueAt.monotone (by omega)
  rw [midpoint] at hcut
  rw [hk]
  rcases hcut with habove | ⟨hon, hodd⟩
  · exact .inl (by linarith)
  rcases hj.lt_or_eq with hlt | heq
  · exact .inl (by linarith)
  · obtain rfl : j = k := strictMono_valueAt.injective heq
    exact .inr ⟨by linarith, by omega, hodd⟩

theorem sum_of_gt (hm : m.IsRounded q) (hfinite : m.rank ≠ infinityRank) {j : Nat} (h : m.rank < j) :
    2 * q < valueAt m.rank + valueAt j ∨ valueAt m.rank + valueAt j = 2 * q ∧ m.rank % 2 = 0 ∧ j % 2 = 1 := by
  have hle := m.rank_le
  have hcut := mt (hm m.rank (by omega)).mpr (Nat.lt_irrefl _)
  have hj : valueAt (m.rank + 1) ≤ valueAt j := strictMono_valueAt.monotone (by omega)
  rw [midpoint, not_or, not_lt] at hcut
  obtain ⟨hbelow, heven⟩ := hcut
  rcases hbelow.lt_or_eq with hlt | hon
  · exact .inl (by linarith)
  rcases hj.lt_or_eq with hlt | heq
  · exact .inl (by linarith)
  · obtain rfl : m.rank + 1 = j := strictMono_valueAt.injective heq
    have hodd : ¬ m.rank % 2 = 1 := fun hodd => heven ⟨hon.symm, hodd⟩
    exact .inr ⟨by linarith, by omega, by omega⟩

/-- Any other magnitude is farther off, or as near and then odd where this one is even. -/
theorem nearer (hm : m.IsRounded q) (hfinite : m.rank ≠ infinityRank) {j : Nat} (hne : j ≠ m.rank) :
    |q - m.value| < |q - valueAt j| ∨ |q - m.value| = |q - valueAt j| ∧ m.rank % 2 = 0 ∧ j % 2 = 1 := by
  have htie : valueAt m.rank + valueAt j = 2 * q → |q - valueAt m.rank| = |q - valueAt j| := by
    intro hsum
    rw [← abs_neg]
    congr 1
    linarith
  rw [value_eq, closer_iff]
  rcases Nat.lt_or_gt_of_ne hne with hbelow | habove
  · have hlt : valueAt j < valueAt m.rank := strictMono_valueAt hbelow
    refine (hm.sum_of_lt hbelow).imp (fun hsum => ?_) (fun hsum => ⟨htie hsum.1, hsum.2⟩)
    exact mul_neg_of_neg_of_pos (by linarith) (by linarith)
  · have hlt : valueAt m.rank < valueAt j := strictMono_valueAt habove
    refine (hm.sum_of_gt hfinite habove).imp (fun hsum => ?_) (fun hsum => ⟨htie hsum.1, hsum.2⟩)
    exact mul_neg_of_pos_of_neg (by linarith) (by linarith)

end IsRounded

end Magnitude

/-! ## Doubles -/

/-- The finite double-precision numbers with clear sign bit: up to 53 binary digits, the
    last of them worth 2 ^ -1074 or more, up to 2 ^ 971. -/
def IsDouble (v : ℚ) : Prop := ∃ c e : Nat, c < 2 ^ 53 ∧ e ≤ 2045 ∧ v = c * 2 ^ e / 2 ^ 1074

namespace Magnitude

theorem exists_rank {c e : Nat} (hc : c < 2 ^ 53) (he : e ≤ 2045) : ∃ rank < infinityRank, unitsAt rank = c * 2 ^ e := by
  have hinfinity : infinityRank = 2045 * 2 ^ 52 + 2 ^ 53 := by decide
  induction e generalizing c with
  | zero => exact ⟨0 * 2 ^ 52 + c, by omega, unitsAt_grid hc.le (.inl rfl)⟩
  | succ e ih =>
    by_cases hnormal : 2 ^ 52 ≤ c
    · exact ⟨(e + 1) * 2 ^ 52 + c, by omega, unitsAt_grid hc.le (.inr hnormal)⟩
    · obtain ⟨rank, hrank, hunits⟩ := ih (c := 2 * c) (by omega) (by omega)
      exact ⟨rank, hrank, by rw [hunits, Nat.pow_succ]; ring⟩

/-- The doubles are the values of the ranks below infinity's. -/
theorem isDouble_iff {v : ℚ} : IsDouble v ↔ ∃ rank < infinityRank, valueAt rank = v := by
  have hinfinity : infinityRank = 2045 * 2 ^ 52 + 2 ^ 53 := by decide
  have hvalue : ∀ rank c e : Nat, unitsAt rank = c * 2 ^ e → valueAt rank = c * 2 ^ e / 2 ^ 1074 := by
    intro rank c e hunits
    rw [valueAt, hunits, Nat.cast_mul, Nat.cast_pow, Nat.cast_ofNat]
  constructor
  · rintro ⟨c, e, hc, he, rfl⟩
    obtain ⟨rank, hrank, hunits⟩ := exists_rank hc he
    exact ⟨rank, hrank, hvalue rank c e hunits⟩
  · rintro ⟨rank, hrank, rfl⟩
    obtain ⟨s, n, rfl, hn, hs⟩ := exists_grid rank
    exact ⟨n, s, hn, by omega, hvalue _ n s (unitsAt_grid hn.le hs)⟩

theorem isDouble_value {m : Magnitude} (h : m.rank ≠ infinityRank) : IsDouble m.value :=
  isDouble_iff.mpr ⟨m.rank, Nat.lt_of_le_of_ne m.rank_le h, rfl⟩

theorem significand_mod_two (m : Magnitude) : m.significand % 2 = m.rank % 2 := by
  have hrank := rank_eq m
  omega

/-- Rounding to nearest: no double is nearer, and one as near leaves the magnitude an even
    last digit. Infinity begins at the middle between the last double and 2 ^ 1024. -/
structure IsNearest (m : Magnitude) (q : ℚ) : Prop where
  infinite_iff : m.rank = infinityRank ↔ 2 ^ 1024 - 2 ^ 970 ≤ q
  isDouble : m.rank ≠ infinityRank → IsDouble m.value
  nearest : m.rank ≠ infinityRank → ∀ v, IsDouble v → |q - m.value| ≤ |q - v|
  even : m.rank ≠ infinityRank → ∀ v, IsDouble v → v ≠ m.value → |q - v| = |q - m.value| → m.significand % 2 = 0

namespace IsRounded

variable {m n : Magnitude} {q : ℚ}

theorem isNearest (hm : m.IsRounded q) : m.IsNearest q := by
  refine ⟨hm.infinite_iff, isDouble_value, ?_, ?_⟩
  · intro hfinite v hv
    obtain ⟨j, -, rfl⟩ := isDouble_iff.mp hv
    by_cases hne : j = m.rank
    · rw [hne, value_eq]
    · rcases hm.nearer hfinite hne with hlt | ⟨heq, -, -⟩
      · exact hlt.le
      · exact heq.le
  · intro hfinite v hv hne htie
    obtain ⟨j, -, rfl⟩ := isDouble_iff.mp hv
    have hrank : j ≠ m.rank := by
      rintro rfl
      exact hne rfl
    rcases hm.nearer hfinite hrank with hlt | ⟨-, heven, -⟩
    · exact absurd htie hlt.ne'
    · rw [significand_mod_two, heven]

theorem eq_of_isNearest (hm : m.IsRounded q) (hn : n.IsNearest q) : n = m := by
  refine ext_rank (by_contra fun hne => ?_)
  have hinfinite : n.rank = infinityRank ↔ m.rank = infinityRank := hn.infinite_iff.trans hm.infinite_iff.symm
  have hfinite : m.rank ≠ infinityRank := fun h => hne ((hinfinite.mpr h).trans h.symm)
  have hfinite' : n.rank ≠ infinityRank := mt hinfinite.mp hfinite
  have hle : |q - n.value| ≤ |q - m.value| := hn.nearest hfinite' _ (isDouble_value hfinite)
  rcases hm.nearer hfinite hne with hlt | ⟨htie, -, hodd⟩
  · exact absurd hle (not_le.mpr hlt)
  · -- Both are as near, so both are even; but neighbours are not.
    have hvalue : m.value ≠ n.value := fun h => hne (strictMono_valueAt.injective h.symm)
    have heven := hn.even hfinite' m.value (isDouble_value hfinite) hvalue htie
    rw [significand_mod_two] at heven
    omega

theorem isNearest_iff (hm : m.IsRounded q) : n.IsNearest q ↔ n = m := by
  refine ⟨hm.eq_of_isNearest, ?_⟩
  rintro rfl
  exact hm.isNearest

end IsRounded

/-- The order of numbers with clear sign bit. -/
def AtMost (m n : Magnitude) : Prop := n.rank = infinityRank ∨ m.rank ≠ infinityRank ∧ m.value ≤ n.value

theorem atMost_of_rank_le {m n : Magnitude} (h : m.rank ≤ n.rank) : m.AtMost n := by
  by_cases hinfinite : n.rank = infinityRank
  · exact .inl hinfinite
  · have hle := n.rank_le
    exact .inr ⟨by omega, strictMono_valueAt.monotone h⟩

end Magnitude

/-! ## Decimal numbers -/

namespace Decimal

def value (d : Decimal) : ℚ := d.coefficient / 10 ^ d.places

theorem isRounded_nearest (d : Decimal) : d.nearest.IsRounded d.value := by
  intro k hk
  have hden : 0 < Nat.pow 10 d.places := Nat.pow_pos (by decide)
  have hvalue : d.value = (d.coefficient : ℚ) / (Nat.pow 10 d.places : Nat) := by
    rw [value, Nat.pow_eq, Nat.cast_pow, Nat.cast_ofNat]
  obtain ⟨hbelow, hon⟩ := Magnitude.compare_midpoint d.coefficient hden k
  rw [hvalue, hbelow, hon, ← Magnitude.lt_nearestRank_iff hden, nearest, Magnitude.rank_nearest]
  omega

end Decimal

end LoxFront
