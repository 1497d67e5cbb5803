/-
  LoxFront.Expr — expression trees, the kinds of their nodes in pre-order, and their
  comparison.

  A node keeps the tokens it was written with, also those its text never shows: a call's
  closing parenthesis, the keyword of a method or of the object itself, and every line.
  `same` compares all of them, with numbers compared as numbers.
-/

import LoxFront.Token

namespace LoxFront

/-! ## Values -/

/-- A value written in the source. -/
inductive Value
  | nil
  | boolean (value : Bool)
  | number (value : Binary64)
  | text (value : Text)
  deriving DecidableEq

namespace Value

/-- A token without a literal stands for nil. -/
def ofLiteral : Option Literal → Value
  | none => .nil
  | some (.number x) => .number x
  | some (.text t) => .text t

def shown : Value → Text
  | .nil => "nil".toList
  | .boolean true => "true".toList
  | .boolean false => "false".toList
  | .number x => x.text
  | .text t => t

def same : Value → Value → Bool
  | .nil, .nil => true
  | .boolean a, .boolean b => a == b
  | .number x, .number y => x.same y
  | .text t, .text u => t == u
  | _, _ => false

end Value

/-! ## Trees -/

inductive Expr
  | assign (name : Token) (value : Expr)
  | binary (left : Expr) (operator : Token) (right : Expr)
  | call (callee : Expr) (paren : Token) (arguments : List Expr)
  | get (object : Expr) (name : Token)
  | grouping (inner : Expr)
  | literal (value : Value)
  | logical (left : Expr) (operator : Token) (right : Expr)
  | set (object : Expr) (name : Token) (value : Expr)
  | super (keyword method : Token)
  | this (keyword : Token)
  | unary (operator : Token) (right : Expr)
  | variable (name : Token)

/-- A tree from its operands: of a call's arguments, each has the property. -/
@[elab_as_elim, induction_eliminator]
theorem Expr.induction {motive : Expr → Prop}
    (assign : ∀ name value, motive value → motive (.assign name value))
    (binary : ∀ left operator right, motive left → motive right → motive (.binary left operator right))
    (call : ∀ callee paren arguments, motive callee → (∀ a ∈ arguments, motive a) → motive (.call callee paren arguments))
    (get : ∀ object name, motive object → motive (.get object name))
    (grouping : ∀ inner, motive inner → motive (.grouping inner))
    (literal : ∀ value, motive (.literal value))
    (logical : ∀ left operator right, motive left → motive right → motive (.logical left operator right))
    (set : ∀ object name value, motive object → motive value → motive (.set object name value))
    (super : ∀ keyword method, motive (.super keyword method))
    (this : ∀ keyword, motive (.this keyword))
    (unary : ∀ operator right, motive right → motive (.unary operator right))
    («variable» : ∀ name, motive (.variable name)) (e : Expr) : motive e :=
  Expr.rec assign binary call get grouping literal logical set super this unary «variable»
    (fun _ ha => absurd ha List.not_mem_nil)
    (fun _ _ hhead htail => List.forall_mem_cons.mpr ⟨hhead, htail⟩) e

/-- The kinds of node. -/
inductive NodeKind
  | assign | binary | call | get | grouping | literal | logical | set | super | this | unary | variable
  deriving DecidableEq

def NodeKind.name : NodeKind → Text
  | .assign => "assign".toList
  | .binary => "binary".toList
  | .call => "call".toList
  | .get => "get".toList
  | .grouping => "grouping".toList
  | .literal => "literal".toList
  | .logical => "logical".toList
  | .set => "set".toList
  | .super => "super".toList
  | .this => "this".toList
  | .unary => "unary".toList
  | .variable => "variable".toList

namespace Expr

/-! ## Kinds in pre-order -/

mutual

/-- The node's kind, then its operands' from left to right. -/
def kinds : Expr → List NodeKind
  | .assign _ value => .assign :: value.kinds
  | .binary left _ right => .binary :: (left.kinds ++ right.kinds)
  | .call callee _ arguments => .call :: (callee.kinds ++ kindsOfAll arguments)
  | .get object _ => .get :: object.kinds
  | .grouping inner => .grouping :: inner.kinds
  | .literal _ => [.literal]
  | .logical left _ right => .logical :: (left.kinds ++ right.kinds)
  | .set object _ value => .set :: (object.kinds ++ value.kinds)
  | .super _ _ => [.super]
  | .this _ => [.this]
  | .unary _ right => .unary :: right.kinds
  | .variable _ => [.variable]

def kindsOfAll : List Expr → List NodeKind
  | [] => []
  | e :: es => e.kinds ++ kindsOfAll es

end

/-! ## Comparison -/

mutual

def same : Expr → Expr → Bool
  | .assign n v, .assign m w => n.same m && v.same w
  | .binary l o r, .binary l' o' r' => l.same l' && o.same o' && r.same r'
  | .call c p as, .call c' p' as' => c.same c' && p.same p' && sameAll as as'
  | .get o n, .get o' n' => o.same o' && n.same n'
  | .grouping e, .grouping e' => e.same e'
  | .literal v, .literal w => v.same w
  | .logical l o r, .logical l' o' r' => l.same l' && o.same o' && r.same r'
  | .set o n v, .set o' n' v' => o.same o' && n.same n' && v.same v'
  | .super k m, .super k' m' => k.same k' && m.same m'
  | .this k, .this k' => k.same k'
  | .unary o r, .unary o' r' => o.same o' && r.same r'
  | .variable n, .variable n' => n.same n'
  | _, _ => false

/-- Lists of trees are the same when they are so at every position. -/
def sameAll : List Expr → List Expr → Bool
  | [], [] => true
  | e :: es, f :: fs => e.same f && sameAll es fs
  | _, _ => false

end

end Expr

end LoxFront
