/-
  LoxFront.Proofs.NumberValue — number literals denote what their lexemes say.

  A lexeme's value is the sum of its digits, each ten times the next and, behind the point,
  a tenth of the one in front (`lexemeValue`). It is the value of the decimal that the
  lexeme is read as (`lexemeValue_positional`), whatever the number of its digits. So a
  number token's literal is the double nearest to the lexeme's value, and nothing else of
  the lexeme has a say in it: not the zeros in front and behind, nor whether there is a
  point.
-/

import Mathlib.Data.Nat.Cast.Field
import LoxFront.Proofs.Lines
import LoxFront.Proofs.Rounding
import LoxFront.Proofs.RoundTrip

namespace LoxFront

/-! ## The value of a lexeme -/

def digitValue (c : Char) : ℚ := (c.toNat - '0'.toNat : Nat)

/-- Each digit is worth ten times the next. -/
def wholeValue (digits : Text) : ℚ := digits.foldl (fun v c => 10 * v + digitValue c) 0

/-- The first digit is worth a tenth, and each further one a tenth of the one in front. -/
def fractionValue (digits : Text) : ℚ := digits.foldr (fun c v => (digitValue c + v) / 10) 0

/-- The number that digits with at most one point among them denote. -/
def lexemeValue (t : Text) : ℚ :=
  wholeValue (t.takeWhile (· ≠ '.')) + fractionValue ((t.dropWhile (· ≠ '.')).drop 1)

theorem numeralValue_cons (c : Char) (t : Text) :
    (numeralValue (c :: t) : ℚ) = digitValue c * 10 ^ t.length + numeralValue t := by
  have hhead : numeralValue [c] = c.toNat - '0'.toNat := by simp [numeralValue, Nat.ofDigitChars]
  have happend := numeralValue_append [c] t
  rw [List.singleton_append, hhead] at happend
  rw [happend, digitValue, Nat.cast_add, Nat.cast_mul, Nat.cast_pow, Nat.cast_ofNat, mul_comm]

theorem wholeValue_eq (digits : Text) : wholeValue digits = numeralValue digits := by
  have hfrom : ∀ v : ℚ, digits.foldl (fun v c => 10 * v + digitValue c) v = v * 10 ^ digits.length + numeralValue digits := by
    induction digits with
    | nil => simp [numeralValue, Nat.ofDigitChars]
    | cons c digits ih =>
      intro v
      rw [List.foldl_cons, ih, numeralValue_cons, List.length_cons, pow_succ]
      ring
  rw [wholeValue, hfrom, zero_mul, zero_add]

theorem fractionValue_eq (digits : Text) : fractionValue digits = numeralValue digits / 10 ^ digits.length := by
  induction digits with
  | nil => simp [fractionValue, numeralValue, Nat.ofDigitChars]
  | cons c digits ih =>
    have hfirst : fractionValue (c :: digits) = (digitValue c + fractionValue digits) / 10 := rfl
    have hpow : (10 : ℚ) ^ digits.length ≠ 0 := by positivity
    rw [hfirst, ih, numeralValue_cons, List.length_cons, pow_succ]
    field_simp

theorem lexemeValue_positional {whole fraction : Text} (hw : ∀ c ∈ whole, c.isDigit) :
    lexemeValue (Decimal.positional whole fraction) = (Decimal.ofDigits whole fraction).value := by
  have hpoint : '.' ∉ whole := fun h => absurd (hw _ h) (by decide)
  have hvalue : (Decimal.ofDigits whole fraction).value = wholeValue whole + fractionValue fraction := by
    have hpow : (10 : ℚ) ^ fraction.length ≠ 0 := by positivity
    rw [wholeValue_eq, fractionValue_eq, Decimal.value, Decimal.ofDigits, numeralValue_append, Nat.cast_add, Nat.cast_mul,
      Nat.cast_pow, Nat.cast_ofNat]
    field_simp
  rw [hvalue]
  cases fraction with
  | nil =>
    have htake := takeWhile_ne_run hpoint (r := []) (by simp)
    have hdrop := dropWhile_ne_run hpoint (r := []) (by simp)
    rw [List.append_nil] at htake hdrop
    simp only [Decimal.positional, List.isEmpty_nil, if_true, lexemeValue, htake, hdrop, List.drop_nil]
  | cons d fraction =>
    have hhead : ∀ c ∈ ('.' :: d :: fraction).head?, c = '.' := by simp
    simp only [Decimal.positional, List.isEmpty_cons, Bool.false_eq_true, if_false, lexemeValue,
      takeWhile_ne_run hpoint hhead, dropWhile_ne_run hpoint hhead, List.drop_one, List.tail_cons]

/-! ## Number tokens -/

theorem wellFormed_of_mem_scan {source : Text} {t : Token} (ht : t ∈ (scan source).tokens) (hk : t.kind ≠ .eof) :
    WellFormed t.form := by
  have hmem : t ∈ (scan source).tokens.filter (·.kind ≠ .eof) := List.mem_filter.mpr ⟨ht, decide_eq_true hk⟩
  rw [tokens_before_eof] at hmem
  exact (wellFormed_of_mem_tokensFrom hmem).1

/-- A number token stands for a decimal with the value of its lexeme. -/
theorem decimal_of_number {f : Form} (h : WellFormed f) (hk : f.kind = .number) :
    ∃ d : Decimal, f.literal = some (.number (.positive d.nearest)) ∧ lexemeValue f.lexeme = d.value := by
  cases h with
  | number hne hw hf => exact ⟨_, rfl, lexemeValue_positional hw⟩
  | mark m | keyword k | identifier _ _ _ | string _ => cases hk

theorem decimal_of_mem_scan {source : Text} {t : Token} (ht : t ∈ (scan source).tokens) (hk : t.kind = .number) :
    ∃ d : Decimal, t.literal = some (.number (.positive d.nearest)) ∧ lexemeValue t.lexeme = d.value := by
  have heof : t.kind ≠ .eof := by
    rw [hk]
    exact nofun
  exact decimal_of_number (wellFormed_of_mem_scan ht heof) hk

/-- A number token's literal is the double nearest to the value of the lexeme, ties to the
    even one, with clear sign bit. It is infinity from 2 ^ 1024 - 2 ^ 970 on and zero up to
    2 ^ -1075. Two tokens with lexemes of one value have one literal, and values in order
    have literals in order. -/
theorem literals_denote_lexemes :
    (∀ source, ∀ t ∈ (scan source).tokens, t.kind = .number →
      ∃ m : Magnitude, t.literal = some (.number (.positive m)) ∧
        (∀ n : Magnitude, n.IsNearest (lexemeValue t.lexeme) ↔ n = m) ∧
        (m = .infinity ↔ 2 ^ 1024 - 2 ^ 970 ≤ lexemeValue t.lexeme) ∧
        (m = .zero ↔ lexemeValue t.lexeme ≤ 1 / 2 ^ 1075)) ∧
      ∀ source source', ∀ t ∈ (scan source).tokens, ∀ u ∈ (scan source').tokens, t.kind = .number → u.kind = .number →
        (lexemeValue t.lexeme = lexemeValue u.lexeme → t.literal = u.literal) ∧
          (lexemeValue t.lexeme ≤ lexemeValue u.lexeme → ∃ m n : Magnitude,
            t.literal = some (.number (.positive m)) ∧ u.literal = some (.number (.positive n)) ∧ m.AtMost n) := by
  constructor
  · intro source t ht hk
    obtain ⟨d, hliteral, hvalue⟩ := decimal_of_mem_scan ht hk
    have hrounded := d.isRounded_nearest
    rw [← hvalue] at hrounded
    refine ⟨d.nearest, hliteral, fun n => hrounded.isNearest_iff, ?_, ?_⟩
    · exact Magnitude.ext_rank_iff.trans hrounded.infinite_iff
    · exact Magnitude.ext_rank_iff.trans hrounded.zero_iff
  · intro source source' t ht u hu hkt hku
    obtain ⟨d, hliteral, hvalue⟩ := decimal_of_mem_scan ht hkt
    obtain ⟨e, hliteral', hvalue'⟩ := decimal_of_mem_scan hu hku
    have hd := d.isRounded_nearest
    have he := e.isRounded_nearest
    rw [hvalue, hvalue']
    constructor
    · intro heq
      rw [hliteral, hliteral', Magnitude.ext_rank (Nat.le_antisymm (hd.rank_mono he heq.le) (he.rank_mono hd heq.ge))]
    · intro hle
      exact ⟨d.nearest, e.nearest, hliteral, hliteral', Magnitude.atMost_of_rank_le (hd.rank_mono he hle)⟩

/-- One more than 2 ^ 53: halfway between two doubles. -/
def halfwayNumber : Token :=
  ⟨.number, "9007199254740993".toList, some (.number (.positive (.atMost 0x4340000000000000))), 1⟩

/-- Seven and a half, however it is spelled. -/
def sevenAndHalf (lexeme : Text) : Token := ⟨.number, lexeme, some (.number (.positive (.atMost 0x401E000000000000))), 1⟩

theorem literals_halfwayAndPadded :
    (scan "9007199254740993 007.50 7.5".toList).tokens =
        [halfwayNumber, sevenAndHalf "007.50".toList, sevenAndHalf "7.5".toList, .eof 1] ∧
      (∀ n : Magnitude, n.IsNearest (lexemeValue "9007199254740993".toList) ↔ n = .atMost 0x4340000000000000) ∧
      lexemeValue "007.50".toList = lexemeValue "7.5".toList ∧
      (sevenAndHalf "007.50".toList).literal = (sevenAndHalf "7.5".toList).literal := by
  have htokens : (scan "9007199254740993 007.50 7.5".toList).tokens =
      [halfwayNumber, sevenAndHalf "007.50".toList, sevenAndHalf "7.5".toList, .eof 1] := by decide +kernel
  have hvalue : lexemeValue "007.50".toList = lexemeValue "7.5".toList := by decide +kernel
  obtain ⟨m, hliteral, hnearest, -⟩ := literals_denote_lexemes.1 _ halfwayNumber (by rw [htokens]; simp) rfl
  have hsame := literals_denote_lexemes.2 _ _ (sevenAndHalf "007.50".toList) (by rw [htokens]; simp)
    (sevenAndHalf "7.5".toList) (by rw [htokens]; simp) rfl rfl
  cases hliteral
  exact ⟨htokens, hnearest, hvalue, hsame.1 hvalue⟩

end LoxFront
