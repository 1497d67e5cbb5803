/-
  LoxFront.Binary64.Shortest — the text of a number: the fewest decimal digits that read
  back as the same number, always positional.

  The decimals with a given last digit's place form a grid, and the two neighbours of a
  value on it are the only ones of that grid worth a test. Grids are tried from the
  coarsest; the first with a neighbour that reads back wins, of two such neighbours the
  nearer, and of two equally near the upper. What reads back is decided by the reader
  itself, `Decimal.nearest`. At 1074 places every magnitude is on the grid, and the exact
  value closes the search.
-/

import LoxFront.Binary64.Nearest

namespace LoxFront

namespace Magnitude

/-- The multiples of `step / 10 ^ places`. -/
structure Grid where
  step : Nat
  places : Nat

/-- From one digit above the value's whole part down to the places of the least unit. -/
def grids (m : Magnitude) : List Grid :=
  let digits := (numeral (m.units / Nat.pow 2 1074)).length
  ((List.range (digits + 1)).reverse.map fun k => ⟨Nat.pow 10 k, 0⟩) ++
    (List.range 1074).map fun k => ⟨1, k + 1⟩

/-- The value's coefficient at `places` places, times 2 ^ 1074. -/
def scaledCoefficient (m : Magnitude) (places : Nat) : Nat := m.units * Nat.pow 10 places

/-- The value itself, as 2 ^ -1074 is 5 ^ 1074 / 10 ^ 1074. -/
def exact (m : Magnitude) : Decimal := ⟨m.units * Nat.pow 5 1074, 1074⟩

def neighbourBelow (m : Magnitude) (g : Grid) : Decimal :=
  ⟨m.scaledCoefficient g.places / (Nat.pow 2 1074 * g.step) * g.step, g.places⟩

def neighbourAbove (m : Magnitude) (g : Grid) : Decimal :=
  ⟨(m.scaledCoefficient g.places / (Nat.pow 2 1074 * g.step) + 1) * g.step, g.places⟩

/-- Which neighbour is nearer: twice the value against the sum of the two. -/
def prefersBelow (m : Magnitude) (g : Grid) : Bool :=
  2 * m.scaledCoefficient g.places <
    Nat.pow 2 1074 * ((m.neighbourBelow g).coefficient + (m.neighbourAbove g).coefficient)

/-- The neighbour to write on this grid, if one reads back. -/
def onGrid? (m : Magnitude) (g : Grid) : Option Decimal :=
  let below := m.neighbourBelow g
  let above := m.neighbourAbove g
  if below.nearest = m ∧ (m.prefersBelow g ∨ above.nearest ≠ m) then some below
  else if above.nearest = m then some above
  else none

def shortest (m : Magnitude) : Decimal := (m.grids.findSome? m.onGrid?).getD m.exact

theorem nearest_onGrid? {m : Magnitude} {g : Grid} {d : Decimal} (h : m.onGrid? g = some d) : d.nearest = m := by
  unfold onGrid? at h
  dsimp only at h
  split at h
  · next hb => cases h; exact hb.1
  · split at h
    · next ha => cases h; exact ha
    · cases h

end Magnitude

namespace Binary64

def signText (negative : Bool) : Text := if negative then ['-'] else []

def magnitudeText (m : Magnitude) : Text :=
  if m.rank = infinityRank then "inf".toList else m.shortest.text

def text : Binary64 → Text
  | .nan => "NaN".toList
  | .signed negative m => signText negative ++ magnitudeText m

end Binary64

end LoxFront
