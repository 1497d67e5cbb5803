/-
  LoxFront.Proofs.Phrase — trees in prefix notation, token by token.

  A phrase is one token, or a head with operands in parentheses. A tree's phrase says what
  stands for each of its nodes and in which order; written out, it is the tree's text
  (`text_phrase`), and its tokens one behind the other are what a scan of the text is
  expected to return.

  A vocabulary lists the kinds of operator that unary, binary and logical nodes may have. A
  tree spelled in a vocabulary has a regular phrase (`regular_phrase`): all of its forms are
  those of tokens without blanks, and only the head of a set is two marks side by side.
-/

import LoxFront.Expr.Printed
import LoxFront.Proofs.Adjacency
import LoxFront.Proofs.NumberText

namespace LoxFront

/-! ## Forms of fixed spelling -/

namespace Form

def ofMark (m : Mark) : Form := ⟨.mark m, m.spelling, none⟩

def ofKeyword (k : Keyword) : Form := ⟨.keyword k, k.word, none⟩

def ofName (word : Text) : Form := ⟨.identifier, word, none⟩

theorem wellFormed_ofName {c : Char} {word : Text} (hstart : isWordStart c) (hparts : word.all isWordPart)
    (hword : Keyword.ofWord? (c :: word) = none) : WellFormed (.ofName (c :: word)) :=
  .identifier hstart (List.all_eq_true.mp hparts) (Keyword.ofWord?_eq_none_iff.mp hword)

end Form

/-- The form that a scan gives a token with this kind and lexeme, if it is no literal. -/
def Token.written (t : Token) : Form := ⟨t.kind, t.lexeme, none⟩

/-- The token that a value is written with. A text stands without quotation marks, so its
    form is not that of any token. -/
def Value.form : Value → Form
  | .nil => .ofKeyword .nil
  | .boolean true => .ofKeyword .true_
  | .boolean false => .ofKeyword .false_
  | .number x => ⟨.number, x.text, some (.number x)⟩
  | .text t => ⟨.string, t, some (.text t)⟩

/-! ## Phrases -/

inductive Phrase
  | token (form : Form)
  | operation (head : List Form) (operands : List Phrase)

namespace Phrase

@[elab_as_elim, induction_eliminator]
theorem induction {motive : Phrase → Prop} (token : ∀ form, motive (.token form))
    (operation : ∀ head operands, (∀ p ∈ operands, motive p) → motive (.operation head operands)) (p : Phrase) : motive p :=
  Phrase.rec token operation (fun _ hp => absurd hp List.not_mem_nil)
    (fun _ _ hhead htail => List.forall_mem_cons.mpr ⟨hhead, htail⟩) p

mutual

/-- The tokens: an operation's stand between parentheses. -/
def forms : Phrase → List Form
  | .token f => [f]
  | .operation head operands => .ofMark .leftParen :: head ++ formsOfAll operands ++ [.ofMark .rightParen]

def formsOfAll : List Phrase → List Form
  | [] => []
  | p :: ps => p.forms ++ formsOfAll ps

end

mutual

def text : Phrase → Text
  | .token f => f.lexeme
  | .operation head operands => parenthesized (head.flatMap Form.lexeme) (textOfAll operands)

def textOfAll : List Phrase → List Text
  | [] => []
  | p :: ps => p.text :: textOfAll ps

end

theorem textOfAll_eq_map (ps : List Phrase) : textOfAll ps = ps.map text := by
  induction ps with
  | nil => rfl
  | cons p ps ih => rw [textOfAll, ih, List.map_cons]

theorem text_operation (f : Form) (operands : List Phrase) :
    (operation [f] operands).text = parenthesized f.lexeme (textOfAll operands) := by
  rw [text, List.flatMap_singleton]

end Phrase

namespace Expr

mutual

/-- A property's name is an operand, behind the object; an assigned name is the first one. -/
def phrase : Expr → Phrase
  | .assign name value => .operation [.ofMark .equal] [.token name.written, value.phrase]
  | .binary left operator right => .operation [operator.written] [left.phrase, right.phrase]
  | .call callee _ arguments => .operation [.ofName "call".toList] (callee.phrase :: phraseOfAll arguments)
  | .get object name => .operation [.ofMark .dot] [object.phrase, .token name.written]
  | .grouping inner => .operation [.ofName "group".toList] [inner.phrase]
  | .literal value => .token value.form
  | .logical left operator right => .operation [operator.written] [left.phrase, right.phrase]
  | .set object name value =>
    .operation [.ofMark .dot, .ofMark .equal] [object.phrase, .token name.written, value.phrase]
  | .super _ method => .operation [.ofKeyword .super] [.token method.written]
  | .this _ => .token (.ofKeyword .this)
  | .unary operator right => .operation [operator.written] [right.phrase]
  | .variable name => .token name.written

def phraseOfAll : List Expr → List Phrase
  | [] => []
  | e :: es => e.phrase :: phraseOfAll es

end

theorem phraseOfAll_eq_map (es : List Expr) : phraseOfAll es = es.map phrase := by
  induction es with
  | nil => rfl
  | cons e es ih => rw [phraseOfAll, ih, List.map_cons]

theorem lexeme_form (v : Value) : v.form.lexeme = v.shown := by
  cases v with
  | boolean b => cases b <;> rfl
  | _ => rfl

/-- The text of a tree is that of its phrase. -/
theorem text_phrase (e : Expr) : e.phrase.text = e.printed := by
  induction e with
  | assign name value hvalue =>
    rw [printed, ← hvalue]
    rfl
  | binary left operator right hleft hright =>
    rw [printed, ← hleft, ← hright, phrase, Phrase.text_operation]
    rfl
  | call callee paren arguments hcallee harguments =>
    have hall : Phrase.textOfAll (phraseOfAll arguments) = printedAll arguments := by
      rw [Phrase.textOfAll_eq_map, phraseOfAll_eq_map, printedAll_eq_map, List.map_map]
      exact List.map_congr_left harguments
    rw [printed, ← hcallee, ← hall]
    rfl
  | get object name hobject =>
    rw [printed, ← hobject]
    rfl
  | grouping inner hinner =>
    rw [printed, ← hinner]
    rfl
  | literal value => exact lexeme_form value
  | logical left operator right hleft hright =>
    rw [printed, ← hleft, ← hright, phrase, Phrase.text_operation]
    rfl
  | set object name value hobject hvalue =>
    rw [printed, ← hobject, ← hvalue]
    rfl
  | super keyword method => rfl
  | this keyword => rfl
  | unary operator right hright =>
    rw [printed, ← hright, phrase, Phrase.text_operation]
    rfl
  | «variable» name => rfl

end Expr

/-! ## Regular phrases -/

/-- Every mark but a parenthesis may be an operator, and the two words are. -/
def operatorKinds : List Kind :=
  (Mark.all.filter fun m => m ≠ .leftParen ∧ m ≠ .rightParen).map .mark ++ [.keyword .and_, .keyword .or_]

/-- A name, a number or a keyword. -/
def Form.IsOperand (f : Form) : Prop := WellFormed f ∧ (f.IsWord ∨ f.kind = .number)

/-- A word or an operator, or the two marks of a set. -/
def IsHead : List Form → Prop
  | [f] => WellFormed f ∧ (f.IsWord ∨ f.kind ∈ operatorKinds)
  | head => head = [.ofMark .dot, .ofMark .equal]

namespace Phrase

mutual

def Regular : Phrase → Prop
  | .token f => f.IsOperand
  | .operation head operands => IsHead head ∧ RegularAll operands

def RegularAll : List Phrase → Prop
  | [] => True
  | p :: ps => p.Regular ∧ RegularAll ps

end

theorem regularAll_iff {ps : List Phrase} : RegularAll ps ↔ ∀ p ∈ ps, p.Regular := by
  induction ps with
  | nil => exact iff_of_true trivial fun p hp => absurd hp List.not_mem_nil
  | cons p ps ih => rw [RegularAll, ih, List.forall_mem_cons]

end Phrase

/-! ## Spelled trees -/

/-- The kinds of operator that nodes may have. -/
structure Vocabulary where
  unary : List Kind
  binary : List Kind
  logical : List Kind
  unary_subset : unary ⊆ operatorKinds
  binary_subset : binary ⊆ operatorKinds
  logical_subset : logical ⊆ operatorKinds

namespace Token

/-- An identifier with a lexeme that a scan gives identifiers. -/
def IsName (t : Token) : Prop := t.kind = .identifier ∧ WellFormed t.written

/-- A token of one of these kinds, with a lexeme that a scan gives such tokens. -/
def IsOneOf (kinds : List Kind) (t : Token) : Prop := t.kind ∈ kinds ∧ WellFormed t.written

end Token

/-- Nil, a boolean, or a finite number with clear sign bit. -/
def Value.HasToken : Value → Prop
  | .nil | .boolean _ => True
  | .number x => ∃ m : Magnitude, m.rank ≠ infinityRank ∧ x = .positive m
  | .text _ => False

namespace Expr

mutual

/-- Names and operators have lexemes that a scan gives them, operators are those of the
    vocabulary, and values have tokens. What is not printed may be any token. -/
def Spelled (v : Vocabulary) : Expr → Prop
  | .assign name value => name.IsName ∧ value.Spelled v
  | .binary left operator right => left.Spelled v ∧ operator.IsOneOf v.binary ∧ right.Spelled v
  | .call callee _ arguments => callee.Spelled v ∧ SpelledAll v arguments
  | .get object name => object.Spelled v ∧ name.IsName
  | .grouping inner => inner.Spelled v
  | .literal value => value.HasToken
  | .logical left operator right => left.Spelled v ∧ operator.IsOneOf v.logical ∧ right.Spelled v
  | .set object name value => object.Spelled v ∧ name.IsName ∧ value.Spelled v
  | .super _ method => method.IsName
  | .this _ => True
  | .unary operator right => operator.IsOneOf v.unary ∧ right.Spelled v
  | .variable name => name.IsName

def SpelledAll (v : Vocabulary) : List Expr → Prop
  | [] => True
  | e :: es => e.Spelled v ∧ SpelledAll v es

end

theorem spelledAll_iff {v : Vocabulary} {es : List Expr} : SpelledAll v es ↔ ∀ e ∈ es, e.Spelled v := by
  induction es with
  | nil => exact iff_of_true trivial fun e he => absurd he List.not_mem_nil
  | cons e es ih => rw [SpelledAll, ih, List.forall_mem_cons]

theorem isOperand_form {value : Value} (h : value.HasToken) : value.form.IsOperand := by
  cases value with
  | nil => exact ⟨.keyword .nil, .inl (.inr rfl)⟩
  | boolean b => cases b <;> exact ⟨.keyword _, .inl (.inr rfl)⟩
  | number x =>
    obtain ⟨m, hm, rfl⟩ := h
    exact ⟨wellFormed_numberText hm, .inr rfl⟩
  | text t => exact h.elim

theorem isOperand_name {t : Token} (h : t.IsName) : t.written.IsOperand := ⟨h.2, .inl (.inl h.1)⟩

theorem isHead_operator {kinds : List Kind} (hkinds : kinds ⊆ operatorKinds) {t : Token} (h : t.IsOneOf kinds) :
    IsHead [t.written] :=
  ⟨h.2, .inr (hkinds h.1)⟩

theorem regular_phrase {v : Vocabulary} {e : Expr} (h : e.Spelled v) : e.phrase.Regular := by
  induction e with
  | assign name value hvalue =>
    exact ⟨⟨.mark .equal, .inr (by decide)⟩, isOperand_name h.1, hvalue h.2, trivial⟩
  | binary left operator right hleft hright =>
    exact ⟨isHead_operator v.binary_subset h.2.1, hleft h.1, hright h.2.2, trivial⟩
  | call callee paren arguments hcallee harguments =>
    have hcall : WellFormed (.ofName "call".toList) := Form.wellFormed_ofName (by decide) (by decide) (by decide)
    have hall : Phrase.RegularAll (phraseOfAll arguments) := by
      rw [phraseOfAll_eq_map, Phrase.regularAll_iff, List.forall_mem_map]
      exact fun a ha => harguments a ha (spelledAll_iff.mp h.2 a ha)
    exact ⟨⟨hcall, .inl (.inl rfl)⟩, hcallee h.1, hall⟩
  | get object name hobject =>
    exact ⟨⟨.mark .dot, .inr (by decide)⟩, hobject h.1, isOperand_name h.2, trivial⟩
  | grouping inner hinner =>
    have hgroup : WellFormed (.ofName "group".toList) := Form.wellFormed_ofName (by decide) (by decide) (by decide)
    exact ⟨⟨hgroup, .inl (.inl rfl)⟩, hinner h, trivial⟩
  | literal value => exact isOperand_form h
  | logical left operator right hleft hright =>
    exact ⟨isHead_operator v.logical_subset h.2.1, hleft h.1, hright h.2.2, trivial⟩
  | set object name value hobject hvalue =>
    exact ⟨rfl, hobject h.1, isOperand_name h.2.1, hvalue h.2.2, trivial⟩
  | super keyword method =>
    exact ⟨⟨.keyword .super, .inl (.inr rfl)⟩, isOperand_name h, trivial⟩
  | this keyword => exact ⟨.keyword .this, .inl (.inr rfl)⟩
  | unary operator right hright =>
    exact ⟨isHead_operator v.unary_subset h.1, hright h.2, trivial⟩
  | «variable» name => exact isOperand_name h

end Expr

end LoxFront
