/-
  LoxFront.Diagnostic — what a scan can find wrong with a source, and the one-line report
  of a fault.

  A lexical error is a cause with the line it stands on. Its report names no place on the
  line, so the text has a space in front of the colon.
-/

import LoxFront.Text

namespace LoxFront

inductive LexicalError
  | unexpected (line : Nat) (c : Char)
  /-- The line is the source's last, where the string's end was missed. -/
  | unterminated (line : Nat)
  deriving DecidableEq

structure Diagnostic where
  line : Nat
  /-- Empty, or a place such as a lexeme on the line. -/
  location : Text
  message : Text
  deriving DecidableEq

namespace LexicalError

def line : LexicalError → Nat
  | .unexpected line _ => line
  | .unterminated line => line

def message : LexicalError → Text
  | .unexpected _ c => "Unexpected character '".toList ++ c :: "'.".toList
  | .unterminated _ => "Unterminated string.".toList

def diagnostic (e : LexicalError) : Diagnostic := ⟨e.line, [], e.message⟩

end LexicalError

def Diagnostic.text (d : Diagnostic) : Text :=
  "[line ".toList ++ numeral d.line ++ "] Error ".toList ++ d.location ++ ": ".toList ++ d.message

/-- The text in the parts that it is written in; an empty place is a part too. -/
def Diagnostic.parts (d : Diagnostic) : List Text :=
  ["[line ".toList, numeral d.line, "] Error ".toList, d.location, ": ".toList, d.message]

theorem Diagnostic.flatten_parts (d : Diagnostic) : d.parts.flatten = d.text := by
  unfold parts text
  simp only [List.flatten_cons, List.flatten_nil, List.append_nil]
  rw [List.append_assoc, List.append_assoc, List.append_assoc, List.append_assoc]

end LoxFront
