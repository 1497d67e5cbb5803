/-
  LoxFront.Proofs.Form — tokens apart from their lines.

  A form is a token's kind, lexeme and literal. It is well-formed when the kind admits the
  lexeme and the literal is the one that the lexeme stands for; these are exactly the forms
  of the segments that the grammar admits (`wellFormed_iff`).
-/

import LoxFront.Proofs.Grammar

namespace LoxFront

/-- A token without its line. -/
structure Form where
  kind : Kind
  lexeme : Text
  literal : Option Literal
  deriving DecidableEq

def Token.form (t : Token) : Form := ⟨t.kind, t.lexeme, t.literal⟩

namespace Form

def onLine (line : Nat) (f : Form) : Token := ⟨f.kind, f.lexeme, f.literal, line⟩

def eof : Form := ⟨.eof, [], none⟩

@[simp] theorem form_onLine (line : Nat) (f : Form) : (f.onLine line).form = f := rfl

@[simp] theorem form_eof (line : Nat) : (Token.eof line).form = eof := rfl

end Form

inductive WellFormed : Form → Prop
  | mark (m : Mark) : WellFormed ⟨.mark m, m.spelling, none⟩
  | keyword (k : Keyword) : WellFormed ⟨.keyword k, k.word, none⟩
  | identifier {c : Char} {word : Text} : isWordStart c → (∀ d ∈ word, isWordPart d) →
      (∀ k : Keyword, k.word ≠ c :: word) → WellFormed ⟨.identifier, c :: word, none⟩
  /-- Digits, and if there is a fraction a point and digits; the literal is the double
      nearest to the number they denote. -/
  | number {whole fraction : Text} : whole ≠ [] → (∀ d ∈ whole, d.isDigit) → (∀ d ∈ fraction, d.isDigit) →
      WellFormed ⟨.number, Decimal.positional whole fraction,
        some (.number (.positive (Decimal.ofDigits whole fraction).nearest))⟩
  | string {body : Text} : '"' ∉ body → WellFormed ⟨.string, '"' :: body ++ ['"'], some (.text body)⟩

namespace Segment

/-- The form of the token that the segment is. -/
def form? (s : Segment) : Option Form := (s.token? 0).map Token.form

theorem token?_eq (line : Nat) (s : Segment) : s.token? line = s.form?.map (Form.onLine line) := by
  cases s <;> rfl

theorem text_of_form? {s : Segment} {f : Form} (h : s.form? = some f) : s.text = f.lexeme := by
  obtain ⟨t, ht, rfl⟩ := Option.map_eq_some_iff.mp h
  exact (lexeme_of_token? ht).symm

theorem kind_ne_eof_of_form? {s : Segment} {f : Form} (h : s.form? = some f) : f.kind ≠ .eof := by
  cases s <;> cases h
  case word.refl t => exact Kind.ofWord_ne_eof t
  all_goals
    intro he
    cases he

theorem error?_of_form? {s : Segment} {f : Form} (h : s.form? = some f) (line : Nat) : s.error? line = none := by
  cases s <;> cases h <;> rfl

end Segment

/-- Lines have no part in which forms come out. -/
theorem forms_tokensFrom (line : Nat) (segs : List Segment) :
    (tokensFrom line segs).map Token.form = segs.filterMap Segment.form? := by
  induction segs generalizing line with
  | nil => rfl
  | cons s segs ih =>
    rw [tokensFrom_cons, List.map_append, ih, Segment.token?_eq]
    cases h : s.form? <;> simp [h]

theorem wellFormed_of_word {t : Text} (h : Segment.Shaped (.word t)) : WellFormed ⟨.ofWord t, t, none⟩ := by
  obtain ⟨c, u, rfl, hc, hu⟩ := h
  cases hk : Keyword.ofWord? (c :: u) with
  | some k =>
    obtain hword := Keyword.ofWord?_eq_some_iff.mp hk
    simp only [Kind.ofWord, hk]
    exact hword ▸ .keyword k
  | none =>
    simp only [Kind.ofWord, hk]
    exact .identifier hc hu (Keyword.ofWord?_eq_none_iff.mp hk)

theorem shaped_word (k : Keyword) : Segment.Shaped (.word k.word) := by
  cases k <;> exact ⟨_, _, rfl, by decide, List.all_eq_true.mp (by decide)⟩

/-- Well-formed are exactly the forms of segments that the grammar admits. -/
theorem wellFormed_iff {f : Form} : WellFormed f ↔ ∃ s : Segment, s.Shaped ∧ s.form? = some f := by
  constructor
  · intro h
    cases h with
    | mark m => exact ⟨.mark m, trivial, rfl⟩
    | keyword k =>
      refine ⟨.word k.word, shaped_word k, ?_⟩
      simp [Segment.form?, Segment.token?, Kind.ofWord, Keyword.ofWord?_word, Token.form]
    | identifier hc hword hk =>
      refine ⟨.word (_ :: _), ⟨_, _, rfl, hc, hword⟩, ?_⟩
      simp [Segment.form?, Segment.token?, Kind.ofWord, Keyword.ofWord?_eq_none_iff.mpr hk, Token.form]
    | number hne hw hf => exact ⟨.number _ _, ⟨hne, hw, hf⟩, rfl⟩
    | string hbody => exact ⟨.string _, hbody, rfl⟩
  · rintro ⟨s, hs, hform⟩
    cases s <;> cases hform
    case mpr.mark.refl m => exact .mark m
    case mpr.word.refl t => exact wellFormed_of_word hs
    case mpr.number.refl whole fraction => exact .number hs.1 hs.2.1 hs.2.2
    case mpr.string.refl body => exact .string hs

end LoxFront
