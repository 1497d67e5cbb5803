/-
  LoxFront.Binary64.Nearest — the magnitude nearest to a quotient of natural numbers, a
  tie going to the even rank.

  The grid of magnitudes around a value is found from the value's leading bit: below
  2 ^ 53 units every multiple of the unit is a magnitude, and above that the spacing
  doubles with each further bit. A quotient rounded on its grid is a rank once the grids
  below it are counted, whether or not the rounding carries into the next binade.
-/

import LoxFront.Binary64
import LoxFront.Decimal

namespace LoxFront

/-- `num / den` rounded to the nearest natural number, a half to the even one. -/
def roundHalfEven (num den : Nat) : Nat :=
  let below := num / den
  let twice := 2 * (num % den)
  if twice < den ∨ twice = den ∧ below % 2 = 0 then below else below + 1

theorem roundHalfEven_mul (n : Nat) {den : Nat} (h : 0 < den) : roundHalfEven (n * den) den = n := by
  simp [roundHalfEven, Nat.mul_div_cancel _ h, h]

namespace Magnitude

/-- Doublings of the unit that give the spacing of the magnitudes around `units`. -/
def spacing (units : Nat) : Nat := units.log2 - 52

/-- The magnitude nearest to `num / den`. -/
def nearest (num den : Nat) : Magnitude :=
  let scaled := num * Nat.pow 2 1074
  let s := spacing (scaled / den)
  atMost (s * Nat.pow 2 52 + roundHalfEven scaled (den * Nat.pow 2 s))

end Magnitude

/-- The magnitude nearest to a decimal number. -/
def Decimal.nearest (d : Decimal) : Magnitude := Magnitude.nearest d.coefficient (Nat.pow 10 d.places)

/-- The number nearest to what a text denotes; a text that is no decimal is no number. -/
def Binary64.ofText (t : Text) : Binary64 :=
  match Decimal.ofText? t with
  | some d => .positive d.nearest
  | none => .nan

end LoxFront
