/-
  LoxFront.Decimal — finite decimal numbers as a coefficient and a count of places, and
  their positional text: whole part, then a point and exactly `places` digits when there
  are any places. No exponent, no sign. `ofText?` reads such a text (`ofText?_positional`).
-/

import LoxFront.Text.Class

namespace LoxFront

/-- The number `coefficient / 10 ^ places`. -/
structure Decimal where
  coefficient : Nat
  places : Nat
  deriving DecidableEq

namespace Decimal

/-- The number written as a run of digits, a point and a run of digits. -/
def ofDigits (whole fraction : Text) : Decimal :=
  ⟨numeralValue (whole ++ fraction), fraction.length⟩

def wholeDigits (d : Decimal) : Text := numeral (d.coefficient / Nat.pow 10 d.places)

def fractionDigits (d : Decimal) : Text :=
  if d.places = 0 then [] else zeroPadded d.places (numeral (d.coefficient % Nat.pow 10 d.places))

/-- A point separates the parts; where there is no fraction there is no point. -/
def positional (whole fraction : Text) : Text :=
  if fraction.isEmpty then whole else whole ++ '.' :: fraction

def text (d : Decimal) : Text := positional d.wholeDigits d.fractionDigits

/-- Reads digits with at most one point among them. One side of the point may lack digits,
    not both. -/
def ofText? (t : Text) : Option Decimal :=
  let whole := t.takeWhile Char.isDigit
  match t.dropWhile Char.isDigit with
  | [] => if whole.isEmpty then none else some (ofDigits whole [])
  | '.' :: fraction =>
    if fraction.all Char.isDigit && !(whole.isEmpty && fraction.isEmpty) then some (ofDigits whole fraction) else none
  | _ => none

theorem ofText?_positional {whole fraction : Text} (hne : whole ≠ []) (hw : ∀ c ∈ whole, c.isDigit)
    (hf : ∀ c ∈ fraction, c.isDigit) : ofText? (positional whole fraction) = some (ofDigits whole fraction) := by
  cases fraction with
  | nil =>
    have htake := takeWhile_run hw (r := []) (by simp)
    have hdrop := dropWhile_run hw (r := []) (by simp)
    rw [List.append_nil] at htake hdrop
    simp [ofText?, positional, htake, hdrop, hne]
  | cons d fraction =>
    have hpoint : ∀ c ∈ ('.' :: d :: fraction).head?, ¬ c.isDigit := by simp
    have hall : (d :: fraction).all Char.isDigit = true := List.all_eq_true.mpr hf
    simp [ofText?, positional, takeWhile_run hw hpoint, dropWhile_run hw hpoint, hall]

end Decimal

end LoxFront
