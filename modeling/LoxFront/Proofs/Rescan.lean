/-
  LoxFront.Proofs.Rescan — a tree's text scanned again.

  The printer puts a blank or a parenthesis behind every token but two: the parenthesis that
  opens an operation, and the point of a set, which the equals sign follows. Neither of
  these can become longer. So each stretch of the text reads as its tokens in front of all
  that may stand behind it (`ReadsAs`), and stretches are put together one by one, from the
  last to the first (`ReadsAs.behind`, `ReadsAs.append`).
-/

import LoxFront.Proofs.Lines
import LoxFront.Proofs.Phrase
import LoxFront.Proofs.RoundTrip

namespace LoxFront

/-- On one line and without an error, the text reads as the forms wherever it is severed
    from the text behind it. -/
structure ReadsAs (t : Text) (forms : List Form) : Prop where
  no_break : '\n' ∉ t
  tokens : ∀ line rest, (∀ c ∈ rest.head?, Severs c) →
    tokensFrom line (segments (t ++ rest)) = forms.map (Form.onLine line) ++ tokensFrom line (segments rest)
  errors : ∀ line rest, (∀ c ∈ rest.head?, Severs c) →
    errorsFrom line (segments (t ++ rest)) = errorsFrom line (segments rest)

namespace ReadsAs

variable {t u : Text} {fs gs : List Form}

theorem nil : ReadsAs [] [] := ⟨List.not_mem_nil, fun _ _ _ => rfl, fun _ _ _ => rfl⟩

/-- One segment more in front. It has to stop where the text begins. -/
theorem behind (h : ReadsAs t fs) {s : Segment} (hs : s.Shaped) (hbreak : '\n' ∉ s.text)
    (herror : ∀ line, s.error? line = none)
    (hstop : ∀ rest, (∀ c ∈ rest.head?, Severs c) → s.StopsBefore (t ++ rest)) :
    ReadsAs (s.text ++ t) (s.form?.toList ++ fs) := by
  have hline : ∀ line, line + s.text.lineBreaks = line := by
    intro line
    rw [Text.lineBreaks, List.count_eq_zero.mpr hbreak, Nat.add_zero]
  have hsegments : ∀ rest, (∀ c ∈ rest.head?, Severs c) → segments (s.text ++ t ++ rest) = s :: segments (t ++ rest) := by
    intro rest hrest
    rw [List.append_assoc]
    exact Segment.segments_of_prescribed ⟨hs, hstop rest hrest⟩
  refine ⟨?_, ?_, ?_⟩
  · intro hmem
    rcases List.mem_append.mp hmem with hin | hin
    · exact hbreak hin
    · exact h.no_break hin
  · intro line rest hrest
    rw [hsegments rest hrest, tokensFrom_cons, hline, h.tokens line rest hrest, Segment.token?_eq]
    cases s.form? <;> rfl
  · intro line rest hrest
    rw [hsegments rest hrest, errorsFrom_cons, hline, h.errors line rest hrest, herror]
    rfl

theorem append (ht : ReadsAs t fs) (hu : ReadsAs u gs) (hhead : ∀ c ∈ u.head?, Severs c) :
    ReadsAs (t ++ u) (fs ++ gs) := by
  have hsevered : ∀ rest : Text, (∀ c ∈ rest.head?, Severs c) → ∀ c ∈ (u ++ rest).head?, Severs c := by
    intro rest hrest
    cases u with
    | nil => exact hrest
    | cons d u => exact hhead
  refine ⟨?_, ?_, ?_⟩
  · intro hmem
    rcases List.mem_append.mp hmem with hin | hin
    · exact ht.no_break hin
    · exact hu.no_break hin
  · intro line rest hrest
    rw [List.append_assoc, ht.tokens line _ (hsevered rest hrest), hu.tokens line rest hrest, List.map_append,
      List.append_assoc]
  · intro line rest hrest
    rw [List.append_assoc, ht.errors line _ (hsevered rest hrest), hu.errors line rest hrest]

/-- A lexeme by itself. -/
theorem form {f : Form} (hf : WellFormed f) (hstring : f.kind ≠ .string) : ReadsAs f.lexeme [f] := by
  obtain ⟨s, hs, hform⟩ := wellFormed_iff.mp hf
  obtain ⟨token, htoken, rfl⟩ := Option.map_eq_some_iff.mp hform
  have hbreak : '\n' ∉ s.text := no_break_of_token hs htoken hstring
  have hread := nil.behind hs hbreak (fun line => Segment.error?_of_form? hform line)
    (fun rest hrest => stopsBefore_of_severs hform hrest)
  rw [hform, List.append_nil, Segment.text_of_form? hform] at hread
  exact hread

theorem blank (h : ReadsAs t fs) : ReadsAs (' ' :: t) fs :=
  h.behind (s := .blank ' ') rfl (by decide) (fun _ => rfl) fun _ _ => trivial

/-- A parenthesis in front takes in nothing. -/
theorem leftParen (h : ReadsAs t fs) : ReadsAs ('(' :: t) (.ofMark .leftParen :: fs) :=
  h.behind (s := .mark .leftParen) trivial (by decide) (fun _ => rfl) fun _ _ => trivial

theorem dot (h : ReadsAs t fs) : ReadsAs ('.' :: t) (.ofMark .dot :: fs) :=
  h.behind (s := .mark .dot) trivial (by decide) (fun _ => rfl) fun _ _ => trivial

/-- What a whole source reads as. -/
theorem scan_eq (h : ReadsAs t fs) : scan t = ⟨fs.map (Form.onLine 1) ++ [.eof 1], []⟩ := by
  have htokens := h.tokens 1 [] (by simp)
  have herrors := h.errors 1 [] (by simp)
  have hline : t.lineBreaks = 0 := List.count_eq_zero.mpr h.no_break
  rw [List.append_nil] at htokens herrors
  rw [LoxFront.scan_eq, htokens, herrors, hline]
  simp [segments]

end ReadsAs

/-! ## Phrases -/

theorem readsAs_operand {f : Form} (h : f.IsOperand) : ReadsAs f.lexeme [f] := by
  refine .form h.1 ?_
  intro hstring
  rcases h.2 with (hname | hkeyword) | hnumber
  · simp [hstring] at hname
  · simp [hstring, Kind.isKeyword] at hkeyword
  · simp [hstring] at hnumber

theorem readsAs_head {head : List Form} (h : IsHead head) : ReadsAs (head.flatMap Form.lexeme) head := by
  match head, h with
  | [f], h =>
    rw [List.flatMap_singleton]
    refine .form h.1 ?_
    intro hstring
    rcases h.2 with (hname | hkeyword) | hoperator
    · simp [hstring] at hname
    · simp [hstring, Kind.isKeyword] at hkeyword
    · rw [hstring] at hoperator
      exact absurd hoperator (by decide)
  | [], h => cases h
  | f :: g :: rest, h =>
    obtain rfl | h := h
    exact .dot (.form (.mark .equal) (by decide))

/-- The operands with the parenthesis behind them: a blank is in front of each. -/
theorem readsAs_operands {ps : List Phrase} (h : ∀ p ∈ ps, ReadsAs p.text p.forms) :
    ReadsAs ((Phrase.textOfAll ps).flatMap (' ' :: ·) ++ [')']) (Phrase.formsOfAll ps ++ [.ofMark .rightParen]) ∧
      ∀ c ∈ ((Phrase.textOfAll ps).flatMap (' ' :: ·) ++ [')']).head?, Severs c := by
  induction ps with
  | nil =>
    refine ⟨.form (.mark .rightParen) (by decide), ?_⟩
    intro c hc
    obtain rfl : ')' = c := Option.some.inj hc
    decide
  | cons p ps ih =>
    obtain ⟨hhead, htail⟩ := List.forall_mem_cons.mp h
    obtain ⟨hread, hsevered⟩ := ih htail
    refine ⟨?_, ?_⟩
    · have hoperand := (hhead.append hread hsevered).blank
      simpa [Phrase.textOfAll, Phrase.formsOfAll] using hoperand
    · intro c hc
      obtain rfl : ' ' = c := Option.some.inj hc
      decide

theorem readsAs_phrase {p : Phrase} (h : p.Regular) : ReadsAs p.text p.forms := by
  induction p with
  | token f => exact readsAs_operand h
  | operation head operands ih =>
    obtain ⟨hread, hsevered⟩ := readsAs_operands fun p hp => ih p hp (Phrase.regularAll_iff.mp h.2 p hp)
    have hoperation := ((readsAs_head h.1).append hread hsevered).leftParen
    simpa [Phrase.text, Phrase.forms, parenthesized] using hoperation

theorem readsAs_printed {v : Vocabulary} {e : Expr} (h : e.Spelled v) : ReadsAs e.printed e.phrase.forms := by
  rw [← Expr.text_phrase]
  exact readsAs_phrase (Expr.regular_phrase h)

/-! ## Trees -/

/-- Any operator in any place. -/
def Vocabulary.full : Vocabulary where
  unary := operatorKinds
  binary := operatorKinds
  logical := operatorKinds
  unary_subset := List.Subset.refl _
  binary_subset := List.Subset.refl _
  logical_subset := List.Subset.refl _

/-- A tree's text is scanned without an error, on one line, as the tokens of the tree's
    phrase: one for a name, a value or the object itself, and else a parenthesis, the
    operation's head, the operands' tokens as they are printed, and a parenthesis. -/
theorem scan_printed {e : Expr} (h : e.Spelled .full) :
    scan e.printed = ⟨e.phrase.forms.map (Form.onLine 1) ++ [.eof 1], []⟩ :=
  (readsAs_printed h).scan_eq

/-- `this.total = super.total or 0.1`. -/
def totalOrTenth : Expr :=
  .set (.this (.eof 0)) ⟨.identifier, "total".toList, none, 3⟩
    (.logical (.super (.eof 0) ⟨.identifier, "total".toList, none, 3⟩) ⟨.keyword .or_, "or".toList, none, 4⟩
      (.literal (.number (.positive (Decimal.ofDigits ['0'] ['1']).nearest))))

theorem spelled_totalOrTenth : totalOrTenth.Spelled .full := by
  have htotal : Token.IsName ⟨.identifier, "total".toList, none, 3⟩ :=
    ⟨rfl, Form.wellFormed_ofName (by decide) (by decide) (by decide)⟩
  have hor : Token.IsOneOf operatorKinds ⟨.keyword .or_, "or".toList, none, 4⟩ := ⟨by decide, .keyword .or_⟩
  exact ⟨trivial, htotal, htotal, hor, _, by decide +kernel, rfl⟩

theorem scan_totalOrTenth :
    totalOrTenth.Spelled .full ∧ totalOrTenth.printed = "(.= this total (or (super total) 0.1))".toList ∧
      scan totalOrTenth.printed =
        ⟨[.ofMark .leftParen, .ofMark .dot, .ofMark .equal, .ofKeyword .this, .ofName "total".toList, .ofMark .leftParen,
            .ofKeyword .or_, .ofMark .leftParen, .ofKeyword .super, .ofName "total".toList, .ofMark .rightParen,
            ⟨.number, "0.1".toList, some (.number (.positive (Decimal.ofDigits ['0'] ['1']).nearest))⟩,
            .ofMark .rightParen, .ofMark .rightParen].map (Form.onLine 1) ++ [.eof 1], []⟩ := by
  have hnumber : (Binary64.positive (Decimal.ofDigits ['0'] ['1']).nearest).text = "0.1".toList := by decide +kernel
  refine ⟨spelled_totalOrTenth, by decide +kernel, ?_⟩
  rw [scan_printed spelled_totalOrTenth, ← hnumber]
  rfl

end LoxFront
