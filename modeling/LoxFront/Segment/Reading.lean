/-
  LoxFront.Segment.Reading — what a segment says: a token, an error or nothing, given the
  line it ends on.

  Blanks and comments say nothing, and a segment with an error is no token
  (`reading_of_error`).
-/

import LoxFront.Diagnostic
import LoxFront.Segment
import LoxFront.Token

namespace LoxFront

/-- What one lexeme gives: an error, a token, or neither. -/
abbrev Reading := Except LexicalError (Option Token)

namespace Segment

/-- The token that the segment is, when it ends on `line`. -/
def token? (line : Nat) : Segment → Option Token
  | .mark m => some ⟨.mark m, m.spelling, none, line⟩
  | .word t => some ⟨.ofWord t, t, none, line⟩
  | .number whole fraction =>
    some ⟨.number, Decimal.positional whole fraction,
      some (.number (.positive (Decimal.ofDigits whole fraction).nearest)), line⟩
  | .string body => some ⟨.string, '"' :: body ++ ['"'], some (.text body), line⟩
  | _ => none

def error? (line : Nat) : Segment → Option LexicalError
  | .unexpected c => some (.unexpected line c)
  | .openString _ => some (.unterminated line)
  | _ => none

def reading (line : Nat) (s : Segment) : Reading :=
  match s.error? line with
  | some e => .error e
  | none => .ok (s.token? line)

theorem reading_of_error {line : Nat} {s : Segment} {e : LexicalError} (h : s.error? line = some e) :
    s.reading line = .error e ∧ s.token? line = none := by
  cases s <;> cases h <;> exact ⟨rfl, rfl⟩

theorem reading_of_no_error {line : Nat} {s : Segment} (h : s.error? line = none) :
    s.reading line = .ok (s.token? line) := by
  simp [reading, h]

theorem lexeme_of_token? {line : Nat} {s : Segment} {t : Token} (h : s.token? line = some t) : t.lexeme = s.text := by
  cases s <;> cases h <;> rfl

theorem line_of_token? {line : Nat} {s : Segment} {t : Token} (h : s.token? line = some t) : t.line = line := by
  cases s <;> cases h <;> rfl

theorem line_of_error? {line : Nat} {s : Segment} {e : LexicalError} (h : s.error? line = some e) : e.line = line := by
  cases s <;> cases h <;> rfl

theorem string_of_token? {line : Nat} {s : Segment} {t : Token} (h : s.token? line = some t) (hk : t.kind = .string) :
    ∃ body, s = .string body := by
  cases s <;> cases h
  case string.refl body => exact ⟨body, rfl⟩
  case word.refl w => exact absurd hk (Kind.ofWord_ne_string w)
  all_goals cases hk

theorem number_of_token? {s : Segment} {line : Nat} {t : Token} (h : s.token? line = some t) (hk : t.kind = .number) :
    ∃ whole fraction, s = .number whole fraction := by
  cases s <;> cases h
  case number.refl whole fraction => exact ⟨whole, fraction, rfl⟩
  case word.refl w =>
    change Kind.ofWord w = .number at hk
    unfold Kind.ofWord at hk
    split at hk <;> cases hk
  all_goals cases hk

end Segment

/-- Each segment with the line it ends on, the first one starting on `line`. -/
def endLines (line : Nat) : List Segment → List (Segment × Nat)
  | [] => []
  | s :: rest => (s, line + s.text.lineBreaks) :: endLines (line + s.text.lineBreaks) rest

theorem endLines_append (line : Nat) (xs ys : List Segment) :
    endLines line (xs ++ ys) =
      endLines line xs ++ endLines (line + Text.lineBreaks (xs.flatMap Segment.text)) ys := by
  induction xs generalizing line with
  | nil => simp [endLines, Text.lineBreaks]
  | cons s xs ih => simp [endLines, ih, Text.lineBreaks, Nat.add_assoc]

/-- The tokens of a run of segments that starts on `line`. -/
def tokensFrom (line : Nat) (segs : List Segment) : List Token :=
  (endLines line segs).filterMap fun p => p.1.token? p.2

def errorsFrom (line : Nat) (segs : List Segment) : List LexicalError :=
  (endLines line segs).filterMap fun p => p.1.error? p.2

@[simp] theorem tokensFrom_nil (line : Nat) : tokensFrom line [] = [] := rfl

@[simp] theorem errorsFrom_nil (line : Nat) : errorsFrom line [] = [] := rfl

theorem tokensFrom_cons (line : Nat) (s : Segment) (segs : List Segment) :
    tokensFrom line (s :: segs) =
      (s.token? (line + s.text.lineBreaks)).toList ++ tokensFrom (line + s.text.lineBreaks) segs := by
  cases h : s.token? (line + s.text.lineBreaks) <;> simp [tokensFrom, endLines, h]

theorem errorsFrom_cons (line : Nat) (s : Segment) (segs : List Segment) :
    errorsFrom line (s :: segs) =
      (s.error? (line + s.text.lineBreaks)).toList ++ errorsFrom (line + s.text.lineBreaks) segs := by
  cases h : s.error? (line + s.text.lineBreaks) <;> simp [errorsFrom, endLines, h]

theorem tokensFrom_append (line : Nat) (xs ys : List Segment) :
    tokensFrom line (xs ++ ys) =
      tokensFrom line xs ++ tokensFrom (line + Text.lineBreaks (xs.flatMap Segment.text)) ys := by
  simp [tokensFrom, endLines_append]

theorem errorsFrom_append (line : Nat) (xs ys : List Segment) :
    errorsFrom line (xs ++ ys) =
      errorsFrom line xs ++ errorsFrom (line + Text.lineBreaks (xs.flatMap Segment.text)) ys := by
  simp [errorsFrom, endLines_append]

theorem errorsFrom_eq_nil {segs : List Segment} (h : ∀ s ∈ segs, ∀ line, s.error? line = none) (line : Nat) :
    errorsFrom line segs = [] := by
  induction segs generalizing line with
  | nil => rfl
  | cons s segs ih =>
    rw [errorsFrom_cons, h s List.mem_cons_self, ih fun t ht => h t (List.mem_cons_of_mem s ht)]
    rfl

end LoxFront
