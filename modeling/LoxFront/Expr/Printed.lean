/-
  LoxFront.Expr.Printed — a tree's text in prefix form, every operation in parentheses
  with one space in front of each operand.

  A property's name stands behind the object, and a text value stands without quotation
  marks.
-/

import LoxFront.Expr

namespace LoxFront

/-- An operation's head and operands. -/
def parenthesized (head : Text) (operands : List Text) : Text :=
  '(' :: head ++ operands.flatMap (' ' :: ·) ++ [')']

namespace Expr

mutual

def printed : Expr → Text
  | .assign name value => parenthesized ['='] [name.lexeme, value.printed]
  | .binary left operator right => parenthesized operator.lexeme [left.printed, right.printed]
  | .call callee _ arguments => parenthesized "call".toList (callee.printed :: printedAll arguments)
  | .get object name => parenthesized ['.'] [object.printed, name.lexeme]
  | .grouping inner => parenthesized "group".toList [inner.printed]
  | .literal value => value.shown
  | .logical left operator right => parenthesized operator.lexeme [left.printed, right.printed]
  | .set object name value => parenthesized ".=".toList [object.printed, name.lexeme, value.printed]
  | .super _ method => parenthesized "super".toList [method.lexeme]
  | .this _ => "this".toList
  | .unary operator right => parenthesized operator.lexeme [right.printed]
  | .variable name => name.lexeme

def printedAll : List Expr → List Text
  | [] => []
  | e :: es => e.printed :: printedAll es

end

theorem printedAll_eq_map (es : List Expr) : printedAll es = es.map printed := by
  induction es with
  | nil => rfl
  | cons e es ih => simp [printedAll, ih]

end Expr

end LoxFront
