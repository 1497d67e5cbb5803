/-
  LoxFront.Cursor — the one pass over a source, character by character.

  A cursor stands in front of the next character, remembers where the current lexeme
  starts and counts the lines. Whatever reads the source can fail: `none` is a read or a
  slice outside it. The loops go on for as long as the text tells them to; they end as an
  advance leaves less to read (`left_of_advance`). That `none` never comes out is for the
  steps to show (`LoxFront.Cursor.Steps`).

  `peek` and `peekNext` look ahead and give NUL behind the end; a NUL in the source is no
  end. One `step` reads one lexeme.
-/

import LoxFront.Segment.Reading

namespace LoxFront

structure Cursor where
  source : Array Char
  /-- Where the lexeme starts. -/
  start : Nat
  /-- The place of the next character. -/
  current : Nat
  line : Nat

namespace Cursor

def ofText (source : Text) : Cursor := ⟨source.toArray, 0, 0, 1⟩

/-! ## Moving and looking -/

def moved (n : Nat) (c : Cursor) : Cursor := { c with current := c.current + n }

def nextLine (c : Cursor) : Cursor := { c with line := c.line + 1 }

/-- Counts the line that `d` ends, if it ends one. -/
def counted (d : Char) (c : Cursor) : Cursor := if d = '\n' then c.nextLine else c

/-- A new lexeme starts here. -/
def begun (c : Cursor) : Cursor := { c with start := c.current }

def atEnd (c : Cursor) : Bool := c.source.size ≤ c.current

def peek (c : Cursor) : Char := c.source[c.current]?.getD '\x00'

def peekNext (c : Cursor) : Char := c.source[c.current + 1]?.getD '\x00'

def advance (c : Cursor) : Option (Char × Cursor) :=
  c.source[c.current]?.map fun d => (d, c.moved 1)

/-- How many characters are still to read. -/
def left (c : Cursor) : Nat := c.source.size - c.current

theorem left_counted (d : Char) (c : Cursor) : (c.counted d).left = c.left := by
  unfold counted
  split <;> rfl

theorem left_of_advance {c next : Cursor} {d : Char} (h : c.advance = some (d, next)) : next.left < c.left := by
  obtain ⟨e, he, hnext⟩ := Option.map_eq_some_iff.mp h
  obtain ⟨hcurrent, -⟩ := Array.getElem?_eq_some_iff.mp he
  cases hnext
  simp only [left, moved]
  omega

/-- Advances over `expected` only. -/
def accept (expected : Char) (c : Cursor) : Option (Bool × Cursor) :=
  if c.atEnd then some (false, c)
  else do
    let d ← c.source[c.current]?
    return if d = expected then (true, c.moved 1) else (false, c)

/-- The characters from place `i` to in front of place `j`. -/
def slice (i j : Nat) (c : Cursor) : Option Text :=
  if i ≤ j ∧ j ≤ c.source.size then some (c.source.extract i j).toList else none

def lexeme (c : Cursor) : Option Text := c.slice c.start c.current

/-! ## Loops -/

def skipWhile (p : Char → Bool) (c : Cursor) : Option Cursor :=
  if p c.peek then
    match _ : c.advance with
    | some (_, next) => next.skipWhile p
    | none => none
  else some c
termination_by c.left
decreasing_by exact left_of_advance ‹_›

/-- To the line feed, which is not part of the comment. -/
def skipLineComment (c : Cursor) : Option Cursor :=
  if c.peek ≠ '\n' ∧ !c.atEnd then
    match _ : c.advance with
    | some (_, next) => next.skipLineComment
    | none => none
  else some c
termination_by c.left
decreasing_by exact left_of_advance ‹_›

/-- Past the first star and slash, or to the end. Comments do not nest. -/
def skipBlockComment (c : Cursor) : Option Cursor :=
  if c.atEnd then some c
  else if c.peek = '*' ∧ c.peekNext = '/' then some (c.moved 2)
  else
    match _ : c.advance with
    | some (d, next) => (next.counted d).skipBlockComment
    | none => none
termination_by c.left
decreasing_by exact left_counted d next ▸ left_of_advance ‹_›

/-- To the quotation mark, or to the end. -/
def skipString (c : Cursor) : Option Cursor :=
  if c.peek ≠ '"' ∧ !c.atEnd then
    match _ : (c.counted c.peek).advance with
    | some (_, next) => next.skipString
    | none => none
  else some c
termination_by c.left
decreasing_by exact left_counted c.peek c ▸ left_of_advance ‹_›

/-- A point and the digits behind it, if there is one behind it. -/
def skipFraction (c : Cursor) : Option Cursor :=
  if c.peek = '.' ∧ c.peekNext.isDigit then do
    let (_, c) ← c.advance
    c.skipWhile Char.isDigit
  else some c

/-! ## Lexemes, behind their first character -/

def mark (m : Mark) (c : Cursor) : Option (Reading × Cursor) := do
  return (.ok (some ⟨.mark m, ← c.lexeme, none, c.line⟩), c)

def compound (withEqual alone : Mark) (c : Cursor) : Option (Reading × Cursor) := do
  let (found, c) ← c.accept '='
  c.mark (if found then withEqual else alone)

def slash (c : Cursor) : Option (Reading × Cursor) := do
  let (isLine, c) ← c.accept '/'
  if isLine then return (.ok none, ← c.skipLineComment)
  let (isBlock, c) ← c.accept '*'
  if isBlock then return (.ok none, ← c.skipBlockComment)
  c.mark .slash

def string (c : Cursor) : Option (Reading × Cursor) := do
  let c ← c.skipString
  if c.atEnd then return (.error (.unterminated c.line), c)
  let (_, c) ← c.advance
  let body ← c.slice (c.start + 1) (c.current - 1)
  return (.ok (some ⟨.string, ← c.lexeme, some (.text body), c.line⟩), c)

def number (c : Cursor) : Option (Reading × Cursor) := do
  let c ← c.skipWhile Char.isDigit
  let c ← c.skipFraction
  let lexeme ← c.lexeme
  return (.ok (some ⟨.number, lexeme, some (.number (.ofText lexeme)), c.line⟩), c)

def word (c : Cursor) : Option (Reading × Cursor) := do
  let c ← c.skipWhile isWordPart
  let lexeme ← c.lexeme
  return (.ok (some ⟨.ofWord lexeme, lexeme, none, c.line⟩), c)

/-! ## A step -/

/-- Reads one lexeme, from its first character on. -/
def step (c : Cursor) : Option (Reading × Cursor) := do
  let (d, c) ← c.advance
  match d with
  | '(' => c.mark .leftParen
  | ')' => c.mark .rightParen
  | '\x7b' => c.mark .leftBrace
  | '\x7d' => c.mark .rightBrace
  | ',' => c.mark .comma
  | '.' => c.mark .dot
  | '-' => c.mark .minus
  | '+' => c.mark .plus
  | ';' => c.mark .semicolon
  | '*' => c.mark .star
  | '!' => c.compound .bangEqual .bang
  | '=' => c.compound .equalEqual .equal
  | '<' => c.compound .lessEqual .less
  | '>' => c.compound .greaterEqual .greater
  | '/' => c.slash
  | ' ' | '\r' | '\t' => return (.ok none, c)
  | '\n' => return (.ok none, c.nextLine)
  | '"' => c.string
  | d =>
    if d.isDigit then c.number
    else if isWordStart d then c.word
    else return (.error (.unexpected c.line d), c)

end Cursor

end LoxFront
