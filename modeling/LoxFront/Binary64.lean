/-
  LoxFront.Binary64 — double-precision numbers by their place in the order.

  A magnitude is a rank: 0 is zero, the ranks below 2 ^ 52 are the subnormal numbers, and
  `infinityRank` is infinity. Counting magnitudes upwards counts these ranks, so order and
  neighbourhood are those of the natural numbers. `units` gives the value in multiples of
  2 ^ -1074, the least positive magnitude; infinity has the value 2 ^ 1024 that the next
  binade would start with, so rounding needs no case for overflow.

  The 64-bit pattern is the rank with the sign in front; all patterns of a NaN are one
  value here, as no operation tells them apart.
-/

import LoxFront.Text

namespace LoxFront

def infinityRank : Nat := 0x7FF0000000000000

/-- A number without its sign, infinity included. -/
structure Magnitude where
  rank : Nat
  rank_le : rank ≤ infinityRank
  deriving DecidableEq

namespace Magnitude

theorem ext_rank {m n : Magnitude} (h : m.rank = n.rank) : m = n := by
  cases m; cases n; cases h; rfl

theorem ext_rank_iff {m n : Magnitude} : m = n ↔ m.rank = n.rank := ⟨congrArg rank, ext_rank⟩

def zero : Magnitude := ⟨0, by decide⟩

def infinity : Magnitude := ⟨infinityRank, Nat.le_refl _⟩

def atMost (rank : Nat) : Magnitude := ⟨min rank infinityRank, Nat.min_le_right _ _⟩

/-- The exponent field: zero for the subnormal numbers. -/
def binade (m : Magnitude) : Nat := m.rank / Nat.pow 2 52

def significand (m : Magnitude) : Nat :=
  if m.binade = 0 then m.rank else Nat.pow 2 52 + m.rank % Nat.pow 2 52

/-- The value in units of 2 ^ -1074. -/
def units (m : Magnitude) : Nat := m.significand * Nat.pow 2 (m.binade - 1)

end Magnitude

inductive Binary64
  | nan
  | signed (negative : Bool) (magnitude : Magnitude)
  deriving DecidableEq

namespace Binary64

def positive (m : Magnitude) : Binary64 := .signed false m

def signBit : Nat := Nat.pow 2 63

/-- The number with a 64-bit pattern. A pattern above infinity's is a NaN, whatever its sign. -/
def ofBits (bits : Nat) : Binary64 :=
  let rank := bits % signBit
  if h : rank ≤ infinityRank then .signed (signBit ≤ bits) ⟨rank, h⟩ else .nan

/-- No pattern for a NaN, which has many. -/
def bits? : Binary64 → Option Nat
  | .nan => none
  | .signed negative m => some ((if negative then signBit else 0) + m.rank)

/-- The comparison of numbers: a NaN equals nothing, and the two zeros are equal. -/
def same : Binary64 → Binary64 → Bool
  | .signed a m, .signed b n => m.rank == n.rank && (a == b || m.rank == 0)
  | _, _ => false

end Binary64

end LoxFront
