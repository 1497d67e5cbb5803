/-
  LoxFront.Token — tokens, their literals, their one-line text and their comparison.

  Two comparisons live side by side. Equality of the Lean values tells every difference;
  `same` compares numbers as numbers, so a token with a NaN literal differs from itself and
  zero is minus zero.
-/

import LoxFront.Token.Kind
import LoxFront.Binary64.Shortest

namespace LoxFront

/-! ## Literals -/

inductive Literal
  | number (value : Binary64)
  | text (value : Text)
  deriving DecidableEq

namespace Literal

def shown : Literal → Text
  | .number x => x.text
  | .text t => t

/-- A token without a literal shows nothing in its place. -/
def shown? : Option Literal → Text
  | none => []
  | some l => l.shown

def same : Literal → Literal → Bool
  | .number x, .number y => x.same y
  | .text t, .text u => t == u
  | _, _ => false

def same? : Option Literal → Option Literal → Bool
  | none, none => true
  | some l, some m => l.same m
  | _, _ => false

end Literal

/-! ## Tokens -/

structure Token where
  kind : Kind
  lexeme : Text
  literal : Option Literal
  line : Nat
  deriving DecidableEq

namespace Token

/-- The end of the source, on its last line. -/
def eof (line : Nat) : Token := ⟨.eof, [], none, line⟩

/-- Kind, lexeme and literal with one space between each two, also where one is empty. -/
def text (t : Token) : Text := t.kind.name ++ ' ' :: t.lexeme ++ ' ' :: Literal.shown? t.literal

/-- The text under an index, both index and line at least four digits wide. -/
def indexedText (t : Token) (index : Nat) : Text :=
  zeroPadded 4 (numeral index) ++ " #".toList ++ zeroPadded 4 (numeral t.line) ++ ' ' :: t.text

def same (t u : Token) : Bool :=
  t.kind == u.kind && t.lexeme == u.lexeme && Literal.same? t.literal u.literal && t.line == u.line

end Token

end LoxFront
