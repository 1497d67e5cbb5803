/-
  LoxFront.Listing — what standard output shows of a scan: a line for each token, the
  numbered listing with a title in front, and a summary behind.

  The two listings differ in no more than a heading and a label in front of each token's
  text (`report_eq`).
-/

import LoxFront.Token

namespace LoxFront

def outputLine (t : Text) : Text := t ++ ['\n']

/-- A numbered listing has an index and a line number before each token. -/
inductive Listing
  | bare
  | numbered
  deriving DecidableEq

namespace Listing

def title (name : Text) : Text := "== ".toList ++ name ++ " ==".toList

def lines (listing : Listing) (name : Text) (tokens : List Token) : List Text :=
  match listing with
  | .bare => tokens.map Token.text
  | .numbered => title name :: tokens.zipIdx.map fun p => p.1.indexedText p.2

/-- The end of the source counts as a token. -/
def summary (tokens errors : Nat) : Text :=
  "# ".toList ++ numeral tokens ++ " tokens, ".toList ++ numeral errors ++ " errors".toList

def report (listing : Listing) (name : Text) (tokens : List Token) (errors : Nat) : Text :=
  (listing.lines name tokens ++ [summary tokens.length errors]).flatMap outputLine

/-! ## What the listings differ in -/

def heading (listing : Listing) (name : Text) : Text :=
  match listing with
  | .bare => []
  | .numbered => outputLine (title name)

/-- What stands in front of a token's text: nothing, or its index and its line. -/
def label (listing : Listing) (index : Nat) (t : Token) : Text :=
  match listing with
  | .bare => []
  | .numbered => zeroPadded 4 (numeral index) ++ " #".toList ++ zeroPadded 4 (numeral t.line) ++ [' ']

def entry (listing : Listing) (index : Nat) (t : Token) : Text := outputLine (listing.label index t ++ t.text)

theorem entry_numbered (index : Nat) (t : Token) : entry .numbered index t = outputLine (t.indexedText index) := by
  simp [entry, label, Token.indexedText]

theorem report_eq (listing : Listing) (name : Text) (tokens : List Token) (errors : Nat) :
    listing.report name tokens errors =
      listing.heading name ++ tokens.zipIdx.flatMap (fun p => listing.entry p.2 p.1) ++
        outputLine (summary tokens.length errors) := by
  cases listing with
  | bare =>
    have hindices : tokens.zipIdx.flatMap (fun p => entry .bare p.2 p.1) = tokens.flatMap fun t => outputLine t.text := by
      conv => rhs; rw [← List.zipIdx_map_fst 0 tokens, List.flatMap_map]
      rfl
    rw [hindices]
    simp [report, lines, heading, List.flatMap_map]
  | numbered => simp [report, lines, heading, List.flatMap_map, entry_numbered]

end Listing

end LoxFront
