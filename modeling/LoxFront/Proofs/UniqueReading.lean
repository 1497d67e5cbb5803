/-
  LoxFront.Proofs.UniqueReading — a tree's text tells what the tree is.

  The tokens of a regular phrase can be read in one way only: a parenthesis tells operations
  from single tokens, and no operand begins with what ends the operands or goes on with the
  head (`eq_of_forms`). A scan of a tree's text returns the tokens of its phrase, so equal
  texts have equal phrases. In the language's own vocabulary the phrase tells the kind of
  each node (`nodeKind_phrase`): minus alone is a unary and a binary operator, and the
  number of operands says which.
-/

import LoxFront.Proofs.Rescan

namespace LoxFront

/-! ## Phrases from their tokens -/

namespace Phrase

theorem ne_ofMark_of_isOperand {f : Form} (h : f.IsOperand) (m : Mark) : f ≠ .ofMark m := by
  intro hf
  subst hf
  rcases h.2 with (hname | hkeyword) | hnumber
  · cases hname
  · cases hkeyword
  · cases hnumber

/-- What a phrase begins with neither ends the operands nor goes on with a head. -/
theorem first_of_regular {p : Phrase} (h : p.Regular) :
    ∃ f rest, p.forms = f :: rest ∧ f ≠ .ofMark .rightParen ∧ f ≠ .ofMark .equal := by
  cases p with
  | token f => exact ⟨f, [], rfl, ne_ofMark_of_isOperand h _, ne_ofMark_of_isOperand h _⟩
  | operation head operands => exact ⟨.ofMark .leftParen, _, rfl, by decide, by decide⟩

theorem first_formsOfAll {ps : List Phrase} (h : RegularAll ps) (r : List Form) :
    (formsOfAll ps ++ .ofMark .rightParen :: r).head? ≠ some (.ofMark .equal) := by
  cases ps with
  | nil =>
    intro heq
    cases heq
  | cons p ps =>
    obtain ⟨f, rest, hforms, -, hequal⟩ := first_of_regular h.1
    intro heq
    rw [formsOfAll, hforms] at heq
    exact hequal (Option.some.inj heq)

/-- Where no equals sign follows, a head ends in one way only. -/
theorem head_inj {head head' : List Form} (h : IsHead head) (h' : IsHead head') {t t' : List Form}
    (ht : t.head? ≠ some (.ofMark .equal)) (ht' : t'.head? ≠ some (.ofMark .equal)) (heq : head ++ t = head' ++ t') :
    head = head' ∧ t = t' := by
  match head, head', h, h' with
  | [f], [g], _, _ =>
    obtain ⟨rfl, rfl⟩ := List.cons.inj heq
    exact ⟨rfl, rfl⟩
  -- a point alone is not the point of a set: an equals sign would follow it
  | [f], g :: g' :: rest, _, h' =>
    obtain rfl | h' := h'
    obtain ⟨-, rfl⟩ := List.cons.inj heq
    exact absurd rfl ht
  | f :: f' :: rest, [g], h, _ =>
    obtain rfl | h := h
    obtain ⟨-, rfl⟩ := List.cons.inj heq
    exact absurd rfl ht'
  | f :: f' :: rest, g :: g' :: rest', h, h' =>
    obtain rfl | h := h
    obtain rfl | h' := h'
    exact ⟨rfl, List.append_cancel_left heq⟩

theorem eq_of_formsOfAll {ps qs : List Phrase} {r s : List Form}
    (ih : ∀ p ∈ ps, ∀ {q : Phrase} {r s : List Form}, p.Regular → q.Regular → p.forms ++ r = q.forms ++ s → p = q ∧ r = s)
    (hps : RegularAll ps) (hqs : RegularAll qs)
    (h : formsOfAll ps ++ .ofMark .rightParen :: r = formsOfAll qs ++ .ofMark .rightParen :: s) : ps = qs ∧ r = s := by
  -- the parenthesis ends both, as no operand begins with one that closes
  induction ps generalizing qs with
  | nil =>
    cases qs with
    | nil => exact ⟨rfl, (List.cons.inj h).2⟩
    | cons q qs =>
      obtain ⟨f, rest, hforms, hparen, -⟩ := first_of_regular hqs.1
      rw [formsOfAll, formsOfAll, hforms] at h
      exact absurd (List.cons.inj h).1.symm hparen
  | cons p ps ihs =>
    obtain ⟨hhead, htail⟩ := List.forall_mem_cons.mp ih
    cases qs with
    | nil =>
      obtain ⟨f, rest, hforms, hparen, -⟩ := first_of_regular hps.1
      rw [formsOfAll, formsOfAll, hforms] at h
      exact absurd (List.cons.inj h).1 hparen
    | cons q qs =>
      rw [formsOfAll, formsOfAll, List.append_assoc, List.append_assoc] at h
      obtain ⟨rfl, hrest⟩ := hhead hps.1 hqs.1 h
      obtain ⟨rfl, hrs⟩ := ihs htail hps.2 hqs.2 hrest
      exact ⟨rfl, hrs⟩

/-- A regular phrase is known from its tokens, whatever stands behind them. -/
theorem eq_of_forms {p q : Phrase} {r s : List Form} (hp : p.Regular) (hq : q.Regular) (h : p.forms ++ r = q.forms ++ s) :
    p = q ∧ r = s := by
  induction p generalizing q r s with
  | token f =>
    cases q with
    | token g =>
      obtain ⟨rfl, rfl⟩ := List.cons.inj h
      exact ⟨rfl, rfl⟩
    | operation head operands => exact absurd (List.cons.inj h).1 (ne_ofMark_of_isOperand hp _)
  | operation head operands ih =>
    cases q with
    | token g => exact absurd (List.cons.inj h).1.symm (ne_ofMark_of_isOperand hq _)
    | operation head' operands' =>
      simp only [forms, List.cons_append, List.append_assoc, List.nil_append, List.cons.injEq, true_and] at h
      obtain ⟨rfl, hoperands⟩ := head_inj hp.1 hq.1 (first_formsOfAll hp.2 r) (first_formsOfAll hq.2 s) h
      obtain ⟨rfl, hrs⟩ := eq_of_formsOfAll ih hp.2 hq.2 hoperands
      exact ⟨rfl, hrs⟩

end Phrase

theorem phrase_eq_of_printed_eq {v : Vocabulary} {e e' : Expr} (he : e.Spelled v) (he' : e'.Spelled v)
    (h : e.printed = e'.printed) : e.phrase = e'.phrase := by
  have hscan := (readsAs_printed he).scan_eq
  rw [h, (readsAs_printed he').scan_eq, Scan.mk.injEq, List.append_cancel_right_eq] at hscan
  have hforms := congrArg (List.map Token.form) hscan.1
  simp only [List.map_map, Function.comp_def, Form.form_onLine, List.map_id'] at hforms
  refine (Phrase.eq_of_forms (r := []) (s := []) (Expr.regular_phrase he) (Expr.regular_phrase he') ?_).1
  rw [hforms]

/-! ## Nodes from their phrases -/

/-- The operators of the language. -/
def Vocabulary.lox : Vocabulary where
  unary := [.mark .bang, .mark .minus]
  binary := [.mark .minus, .mark .plus, .mark .slash, .mark .star, .mark .bangEqual, .mark .equalEqual,
    .mark .greater, .mark .greaterEqual, .mark .less, .mark .lessEqual]
  logical := [.keyword .and_, .keyword .or_]
  unary_subset := by decide
  binary_subset := by decide
  logical_subset := by decide

/-- The kind of the outermost node. -/
def Expr.nodeKind : Expr → NodeKind
  | .assign _ _ => .assign
  | .binary _ _ _ => .binary
  | .call _ _ _ => .call
  | .get _ _ => .get
  | .grouping _ => .grouping
  | .literal _ => .literal
  | .logical _ _ _ => .logical
  | .set _ _ _ => .set
  | .super _ _ => .super
  | .this _ => .this
  | .unary _ _ => .unary
  | .variable _ => .variable

def Form.nodeKind (f : Form) : NodeKind :=
  match f.kind with
  | .identifier => .variable
  | .keyword .this => .this
  | _ => .literal

/-- The node with this head and so many operands. Names say nothing here. -/
def operationKind : List Kind → Nat → Option NodeKind
  | [.mark .equal], _ => some .assign
  | [.mark .dot], _ => some .get
  | [.mark .dot, .mark .equal], _ => some .set
  | [.mark _], 1 => some .unary
  | [.mark _], _ => some .binary
  | [.keyword .super], _ => some .super
  | [.keyword _], _ => some .logical
  | _, _ => none

/-- Call and group are names like any other, but no other name is the head of an operation. -/
def Phrase.nodeKind : Phrase → NodeKind
  | .token f => f.nodeKind
  | .operation head operands =>
    (operationKind (head.map Form.kind) operands.length).getD
      (if head = [.ofName "call".toList] then .call else .grouping)

namespace Expr

theorem nodeKind_phrase {e : Expr} (h : e.Spelled .lox) : e.phrase.nodeKind = e.nodeKind := by
  cases e with
  | binary left operator right =>
    have hkind : ∀ k ∈ Vocabulary.lox.binary, operationKind [k] 2 = some .binary := by decide
    exact congrArg (Option.getD · _) (hkind operator.kind h.2.1.1)
  | logical left operator right =>
    have hkind : ∀ k ∈ Vocabulary.lox.logical, operationKind [k] 2 = some .logical := by decide
    exact congrArg (Option.getD · _) (hkind operator.kind h.2.1.1)
  | unary operator right =>
    have hkind : ∀ k ∈ Vocabulary.lox.unary, operationKind [k] 1 = some .unary := by decide
    exact congrArg (Option.getD · _) (hkind operator.kind h.1.1)
  | literal value =>
    cases value with
    | boolean b => cases b <;> rfl
    | _ => rfl
  | «variable» name =>
    have hname : name.kind = .identifier := h.1
    simp only [phrase, Phrase.nodeKind, Form.nodeKind, Token.written, hname]
    rfl
  | _ => rfl

/-! ## What is not printed -/

mutual

/-- The tokens that the text shows, in its order. -/
def printedTokens : Expr → List Token
  | .assign name value => name :: value.printedTokens
  | .binary left operator right => operator :: (left.printedTokens ++ right.printedTokens)
  | .call callee _ arguments => callee.printedTokens ++ printedTokensOfAll arguments
  | .get object name => object.printedTokens ++ [name]
  | .grouping inner => inner.printedTokens
  | .literal _ => []
  | .logical left operator right => operator :: (left.printedTokens ++ right.printedTokens)
  | .set object name value => object.printedTokens ++ name :: value.printedTokens
  | .super _ method => [method]
  | .this _ => []
  | .unary operator right => operator :: right.printedTokens
  | .variable name => [name]

def printedTokensOfAll : List Expr → List Token
  | [] => []
  | e :: es => e.printedTokens ++ printedTokensOfAll es

end

mutual

/-- The tree with `f` of each token that is printed, and one and the same token for each
    that is not. -/
def reduced (f : Token → Token) : Expr → Expr
  | .assign name value => .assign (f name) (value.reduced f)
  | .binary left operator right => .binary (left.reduced f) (f operator) (right.reduced f)
  | .call callee _ arguments => .call (callee.reduced f) (.eof 0) (reducedAll f arguments)
  | .get object name => .get (object.reduced f) (f name)
  | .grouping inner => .grouping (inner.reduced f)
  | .literal value => .literal value
  | .logical left operator right => .logical (left.reduced f) (f operator) (right.reduced f)
  | .set object name value => .set (object.reduced f) (f name) (value.reduced f)
  | .super _ method => .super (.eof 0) (f method)
  | .this _ => .this (.eof 0)
  | .unary operator right => .unary (f operator) (right.reduced f)
  | .variable name => .variable (f name)

def reducedAll (f : Token → Token) : List Expr → List Expr
  | [] => []
  | e :: es => e.reduced f :: reducedAll f es

end

theorem printedTokensOfAll_eq_flatMap (es : List Expr) : printedTokensOfAll es = es.flatMap printedTokens := by
  induction es with
  | nil => rfl
  | cons e es ih => rw [printedTokensOfAll, ih, List.flatMap_cons]

theorem reducedAll_eq_map (f : Token → Token) (es : List Expr) : reducedAll f es = es.map (reduced f) := by
  induction es with
  | nil => rfl
  | cons e es ih => rw [reducedAll, ih, List.map_cons]

theorem printed_reduced {f : Token → Token} (hf : ∀ t, (f t).lexeme = t.lexeme) (e : Expr) :
    (e.reduced f).printed = e.printed := by
  induction e with
  | call callee paren arguments hcallee harguments =>
    have hall : printedAll (reducedAll f arguments) = printedAll arguments := by
      rw [printedAll_eq_map, printedAll_eq_map, reducedAll_eq_map, List.map_map]
      exact List.map_congr_left harguments
    rw [reduced, printed, printed, hcallee, hall]
  | _ => simp_all only [reduced, printed]

theorem printed_eq_of_reduced {f : Token → Token} (hf : ∀ t, (f t).lexeme = t.lexeme) {e e' : Expr}
    (h : e.reduced f = e'.reduced f) : e.printed = e'.printed := by
  rw [← printed_reduced hf e, h, printed_reduced hf]

/-- Only what `f` does to printed tokens matters. -/
theorem reduced_congr {f g : Token → Token} {e : Expr} (h : ∀ t ∈ e.printedTokens, f t = g t) :
    e.reduced f = e.reduced g := by
  induction e with
  | call callee paren arguments hcallee harguments =>
    simp only [printedTokens, printedTokensOfAll_eq_flatMap, List.mem_append, List.mem_flatMap] at h
    have hall : reducedAll f arguments = reducedAll g arguments := by
      rw [reducedAll_eq_map, reducedAll_eq_map]
      exact List.map_congr_left fun a ha => harguments a ha fun t ht => h t (.inr ⟨a, ha, ht⟩)
    rw [reduced, reduced, hcallee fun t ht => h t (.inl ht), hall]
  | _ => simp_all [reduced, printedTokens]

end Expr

/-! ## Trees from their phrases -/

/-- The value that a token writes. -/
def Form.value (f : Form) : Value :=
  match f.kind with
  | .keyword .true_ => .boolean true
  | .keyword .false_ => .boolean false
  | _ => .ofLiteral f.literal

theorem Value.value_form (v : Value) : v.form.value = v := by
  cases v with
  | boolean b => cases b <;> rfl
  | _ => rfl

theorem Value.form_injective : Function.Injective Value.form := Function.LeftInverse.injective Value.value_form

namespace Expr

theorem nodeKind_eq {e e' : Expr} (he : e.Spelled .lox) (he' : e'.Spelled .lox) (h : e.phrase = e'.phrase) :
    e.nodeKind = e'.nodeKind := by
  rw [← nodeKind_phrase he, ← nodeKind_phrase he', h]

theorem reducedAll_of_phrases {f : Token → Token} {es es' : List Expr}
    (ih : ∀ e ∈ es, ∀ {e' : Expr}, e.Spelled .lox → e'.Spelled .lox → e.phrase = e'.phrase → e.reduced f = e'.reduced f)
    (hes : SpelledAll .lox es) (hes' : SpelledAll .lox es') (h : phraseOfAll es = phraseOfAll es') :
    reducedAll f es = reducedAll f es' := by
  induction es generalizing es' with
  | nil =>
    cases es' with
    | nil => rfl
    | cons e' es' => cases h
  | cons e es ihes =>
    cases es' with
    | nil => cases h
    | cons e' es' =>
      obtain ⟨hhead, htail⟩ := List.forall_mem_cons.mp ih
      obtain ⟨hphrase, hphrases⟩ := List.cons.inj h
      rw [reducedAll, reducedAll, hhead hes.1 hes'.1 hphrase, ihes htail hes.2 hes'.2 hphrases]

/-- Trees with one phrase are equal but for what `f` takes from tokens of one kind and one
    lexeme. -/
theorem reduced_of_phrase {f : Token → Token} (hf : ∀ t u : Token, t.written = u.written → f t = f u) {e e' : Expr}
    (he : e.Spelled .lox) (he' : e'.Spelled .lox) (h : e.phrase = e'.phrase) : e.reduced f = e'.reduced f := by
  induction e generalizing e' with
  | assign name value hvalue =>
    cases e' with
    | assign name' value' =>
      simp only [phrase, Phrase.operation.injEq, List.cons.injEq, Phrase.token.injEq, and_true, true_and] at h
      rw [reduced, reduced, hf _ _ h.1, hvalue he.2 he'.2 h.2]
    | _ => cases nodeKind_eq he he' h
  | binary left operator right hleft hright =>
    cases e' with
    | binary left' operator' right' =>
      simp only [phrase, Phrase.operation.injEq, List.cons.injEq, and_true] at h
      rw [reduced, reduced, hf _ _ h.1, hleft he.1 he'.1 h.2.1, hright he.2.2 he'.2.2 h.2.2]
    | _ => cases nodeKind_eq he he' h
  | call callee paren arguments hcallee harguments =>
    cases e' with
    | call callee' paren' arguments' =>
      simp only [phrase, Phrase.operation.injEq, List.cons.injEq, true_and] at h
      rw [reduced, reduced, hcallee he.1 he'.1 h.1, reducedAll_of_phrases harguments he.2 he'.2 h.2]
    | _ => cases nodeKind_eq he he' h
  | get object name hobject =>
    cases e' with
    | get object' name' =>
      simp only [phrase, Phrase.operation.injEq, List.cons.injEq, Phrase.token.injEq, and_true, true_and] at h
      rw [reduced, reduced, hobject he.1 he'.1 h.1, hf _ _ h.2]
    | _ => cases nodeKind_eq he he' h
  | grouping inner hinner =>
    cases e' with
    | grouping inner' =>
      simp only [phrase, Phrase.operation.injEq, List.cons.injEq, and_true, true_and] at h
      have hinner' : inner'.Spelled .lox := he'
      rw [reduced, reduced, hinner he hinner' h]
    | _ => cases nodeKind_eq he he' h
  | literal value =>
    cases e' with
    | literal value' =>
      obtain rfl := Value.form_injective (Phrase.token.inj h)
      rfl
    | _ => cases nodeKind_eq he he' h
  | logical left operator right hleft hright =>
    cases e' with
    | logical left' operator' right' =>
      simp only [phrase, Phrase.operation.injEq, List.cons.injEq, and_true] at h
      rw [reduced, reduced, hf _ _ h.1, hleft he.1 he'.1 h.2.1, hright he.2.2 he'.2.2 h.2.2]
    | _ => cases nodeKind_eq he he' h
  | set object name value hobject hvalue =>
    cases e' with
    | set object' name' value' =>
      simp only [phrase, Phrase.operation.injEq, List.cons.injEq, Phrase.token.injEq, and_true, true_and] at h
      rw [reduced, reduced, hobject he.1 he'.1 h.1, hf _ _ h.2.1, hvalue he.2.2 he'.2.2 h.2.2]
    | _ => cases nodeKind_eq he he' h
  | super keyword method =>
    cases e' with
    | super keyword' method' =>
      simp only [phrase, Phrase.operation.injEq, List.cons.injEq, Phrase.token.injEq, and_true, true_and] at h
      rw [reduced, reduced, hf _ _ h]
    | _ => cases nodeKind_eq he he' h
  | this keyword =>
    cases e' with
    | this keyword' => rfl
    | _ => cases nodeKind_eq he he' h
  | unary operator right hright =>
    cases e' with
    | unary operator' right' =>
      simp only [phrase, Phrase.operation.injEq, List.cons.injEq, and_true] at h
      rw [reduced, reduced, hf _ _ h.1, hright he.2 he'.2 h.2]
    | _ => cases nodeKind_eq he he' h
  | «variable» name =>
    cases e' with
    | «variable» name' => rw [reduced, reduced, hf _ _ (Phrase.token.inj h)]
    | _ => cases nodeKind_eq he he' h

end Expr

/-! ## Equal texts -/

namespace Token

/-- Nothing but the lexeme. -/
def lexemeOnly (t : Token) : Token := ⟨.eof, t.lexeme, none, 0⟩

/-- The token without its line. -/
def unplaced (t : Token) : Token := { t with line := 0 }

/-- The kind and the lexeme. -/
def bare (t : Token) : Token := ⟨t.kind, t.lexeme, none, 0⟩

theorem lexeme_lexemeOnly (t : Token) : t.lexemeOnly.lexeme = t.lexeme := rfl

theorem lexeme_unplaced (t : Token) : t.unplaced.lexeme = t.lexeme := rfl

theorem unplaced_eq_bare {t : Token} (h : t.literal = none) : t.unplaced = t.bare := by rw [unplaced, bare, h]

theorem lexemeOnly_of_written {t u : Token} (h : t.written = u.written) : t.lexemeOnly = u.lexemeOnly :=
  congrArg (fun f : Form => Token.mk .eof f.lexeme none 0) h

theorem bare_of_written {t u : Token} (h : t.written = u.written) : t.bare = u.bare :=
  congrArg (fun f : Form => Token.mk f.kind f.lexeme none 0) h

end Token

/-- Trees have one text if and only if they have the same nodes in the same shape, with the
    same values and the same lexemes of the tokens that are printed. Where these have no
    literals, the trees differ at most in the lines of tokens and in those not printed. -/
theorem printed_eq_iff {e e' : Expr} (he : e.Spelled .lox) (he' : e'.Spelled .lox) :
    (e.printed = e'.printed ↔ e.reduced Token.lexemeOnly = e'.reduced Token.lexemeOnly) ∧
      ((∀ t ∈ e.printedTokens, t.literal = none) → (∀ t ∈ e'.printedTokens, t.literal = none) →
        (e.printed = e'.printed ↔ e.reduced Token.unplaced = e'.reduced Token.unplaced)) := by
  refine ⟨⟨?_, Expr.printed_eq_of_reduced Token.lexeme_lexemeOnly⟩, ?_⟩
  · intro h
    exact Expr.reduced_of_phrase (fun _ _ => Token.lexemeOnly_of_written) he he' (phrase_eq_of_printed_eq he he' h)
  · intro hnone hnone'
    refine ⟨?_, Expr.printed_eq_of_reduced Token.lexeme_unplaced⟩
    intro h
    rw [Expr.reduced_congr fun t ht => Token.unplaced_eq_bare (hnone t ht),
      Expr.reduced_congr fun t ht => Token.unplaced_eq_bare (hnone' t ht)]
    exact Expr.reduced_of_phrase (fun _ _ => Token.bare_of_written) he he' (phrase_eq_of_printed_eq he he' h)

/-- `this.call = -b`, on a line. -/
def negatedCall (line : Nat) : Expr :=
  .set (.this ⟨.keyword .this, "this".toList, none, line⟩) ⟨.identifier, "call".toList, none, line⟩
    (.unary ⟨.mark .minus, ['-'], none, line⟩ (.variable ⟨.identifier, ['b'], none, line⟩))

theorem spelled_negatedCall (line : Nat) : (negatedCall line).Spelled .lox :=
  ⟨trivial, ⟨rfl, Form.wellFormed_ofName (by decide) (by decide) (by decide)⟩, ⟨by simp [Vocabulary.lox], .mark .minus⟩, rfl,
    Form.wellFormed_ofName (by decide) (by decide) (by decide)⟩

theorem printed_negatedCall :
    (negatedCall 1).Spelled .lox ∧ (negatedCall 2).Spelled .lox ∧
      (∀ t ∈ (negatedCall 1).printedTokens, t.literal = none) ∧ (∀ t ∈ (negatedCall 2).printedTokens, t.literal = none) ∧
      (negatedCall 1).reduced Token.lexemeOnly = (negatedCall 2).reduced Token.lexemeOnly ∧
      (negatedCall 1).printed = (negatedCall 2).printed := by
  have hnone : ∀ line, ∀ t ∈ (negatedCall line).printedTokens, t.literal = none := by
    intro line
    simp [negatedCall, Expr.printedTokens]
  obtain ⟨hlexemes, hplaces⟩ := printed_eq_iff (spelled_negatedCall 1) (spelled_negatedCall 2)
  have hprinted := (hplaces (hnone 1) (hnone 2)).mpr rfl
  exact ⟨spelled_negatedCall 1, spelled_negatedCall 2, hnone 1, hnone 2, hlexemes.mp hprinted, hprinted⟩

end LoxFront
