/-
  LoxFront.Scan — a source's tokens and lexical errors.

  A scan is one pass of a cursor over the source. It always ends inside the source, so it
  always has a result: the readings of the source's segments, each with the line it ends
  on, and the end of the source behind the tokens (`scan_eq`). No error keeps the segments
  behind it from being read, and what is done with the errors changes no token
  (`scanWith_eq`).
-/

import LoxFront.Cursor.Pass

namespace LoxFront

variable {ρ : Type}

/-- The tokens, and the reporter after the errors. -/
def scanWith (report : ρ → LexicalError → ρ) (source : Text) (reporter : ρ) : List Token × ρ :=
  let outcome := (Cursor.run report (.ofText source) #[] reporter).get (Cursor.isSome_run report _ #[] reporter)
  (outcome.1.toList, outcome.2)

structure Scan where
  tokens : List Token
  errors : List LexicalError
  deriving DecidableEq

/-- Lines count from 1. -/
def scan (source : Text) : Scan :=
  let outcome := scanWith Array.push source #[]
  ⟨outcome.1, outcome.2.toList⟩

theorem scanWith_eq_segments (report : ρ → LexicalError → ρ) (source : Text) (reporter : ρ) :
    scanWith report source reporter =
      (tokensFrom 1 (segments source) ++ [.eof (1 + source.lineBreaks)],
        (errorsFrom 1 (segments source)).foldl report reporter) := by
  simp [scanWith, Cursor.run_eq]

theorem scan_eq (source : Text) :
    scan source = ⟨tokensFrom 1 (segments source) ++ [.eof (1 + source.lineBreaks)], errorsFrom 1 (segments source)⟩ := by
  simp [scan, scanWith_eq_segments]

theorem scanWith_eq (report : ρ → LexicalError → ρ) (source : Text) (reporter : ρ) :
    scanWith report source reporter = ((scan source).tokens, (scan source).errors.foldl report reporter) := by
  simp [scanWith_eq_segments, scan_eq]

end LoxFront
