/-
  LoxFront.Proofs.Reprinting — numbers printed and scanned again.

  A finite number's text is a number lexeme that stands for it, so by itself it is scanned
  as one token with the number for its literal; infinity's text is a word. In the place of
  a lexeme it begins with a digit as the lexeme does, so what stands in front is read as
  before (`readBefore_of_digits`). What stands behind has a say only if no point is left in
  the text: of a point and a digit behind it, it makes its fraction (`segments_fraction`).
  Else nothing changes but the lexeme (`segments_reprinted`).
-/

import LoxFront.Expr.Printed
import LoxFront.Proofs.Rescan
import LoxFront.Proofs.Seam

namespace LoxFront

/-! ## A number's text by itself -/

theorem wellFormed_finite {m : Magnitude} (h : m ≠ .infinity) :
    WellFormed ⟨.number, (Binary64.positive m).text, some (.number (.positive m))⟩ :=
  wellFormed_numberText fun hrank => h (Magnitude.ext_rank hrank)

/-- A finite number's text is the text of a number segment that stands for it. -/
theorem exists_numberSegment {m : Magnitude} (h : m ≠ .infinity) :
    ∃ whole fraction, (Segment.number whole fraction).Shaped ∧
      numberForm whole fraction = ⟨.number, (Binary64.positive m).text, some (.number (.positive m))⟩ := by
  obtain ⟨s, hs, hform⟩ := wellFormed_iff.mp (wellFormed_finite h)
  obtain ⟨t, ht, htform⟩ := Option.map_eq_some_iff.mp hform
  obtain ⟨whole, fraction, rfl⟩ := Segment.number_of_token? ht (congrArg Form.kind htform)
  exact ⟨whole, fraction, hs, Option.some.inj hform⟩

theorem scan_numberText {m : Magnitude} (h : m ≠ .infinity) :
    scan (Binary64.positive m).text =
      ⟨[⟨.number, (Binary64.positive m).text, some (.number (.positive m)), 1⟩, .eof 1], []⟩ :=
  (ReadsAs.form (wellFormed_finite h) nofun).scan_eq

theorem scan_infinityText :
    scan (Binary64.positive .infinity).text = ⟨[⟨.identifier, "inf".toList, none, 1⟩, .eof 1], []⟩ := by
  have htext : (Binary64.positive .infinity).text = "inf".toList := by decide +kernel
  rw [htext]
  decide +kernel

/-! ## A number among other segments -/

/-- Where a segment stops in front of a digit, it stops in front of any other digit. -/
theorem Segment.stopsBefore_of_digits {s : Segment} {d e : Char} {t u : Text} (h : s.StopsBefore (d :: t))
    (hd : d.isDigit) (he : e.isDigit) : s.StopsBefore (e :: u) := by
  have hne : ∀ c : Char, ¬ c.isDigit → (e :: u).head? ≠ some c := by
    intro c hc heq
    obtain rfl : e = c := Option.some.inj heq
    exact hc he
  cases s with
  | mark m =>
    cases m
    case bang | equal | less | greater => exact hne '=' (by decide)
    case slash => exact ⟨hne '/' (by decide), hne '*' (by decide)⟩
    all_goals trivial
  | word w => exact absurd (isWordPart_of_isDigit hd) (h d rfl)
  | number whole fraction =>
    cases fraction with
    | nil => exact absurd hd (h.1 d rfl)
    | cons c fraction => exact absurd hd (h d rfl)
  | lineComment body =>
    obtain rfl : d = '\n' := h d rfl
    exact absurd hd (by decide)
  | openString _ | openComment _ => cases h
  | string _ | blockComment _ | blank _ | unexpected _ => trivial

theorem readBefore_of_digits {d e : Char} {t u : Text} {segs : List Segment} (h : ReadBefore (d :: t) segs)
    (hd : d.isDigit) (he : e.isDigit) : ReadBefore (e :: u) segs :=
  readBefore_of_last h (fun _ _ hstops => Segment.stopsBefore_of_digits hstops hd he) fun _ => ⟨d, rfl, hd⟩

theorem exists_digit {whole fraction : Text} (hs : (Segment.number whole fraction).Shaped) :
    ∃ d t, (Segment.number whole fraction).text = d :: t ∧ d.isDigit := by
  obtain ⟨d, t, htext⟩ := List.exists_cons_of_ne_nil hs.text_ne_nil
  exact ⟨d, t, htext, isDigit_of_head hs (by rw [htext]; rfl)⟩

theorem not_digit_behind {whole fraction rest : Text} (h : (Segment.number whole fraction).StopsBefore rest) :
    ∀ c ∈ rest.head?, ¬ c.isDigit := by
  cases fraction with
  | nil => exact h.1
  | cons d fraction => exact h

theorem point_not_mem_iff {whole fraction : Text} (hs : (Segment.number whole fraction).Shaped) :
    '.' ∉ (Segment.number whole fraction).text ↔ fraction = [] := by
  have hwhole : '.' ∉ whole := fun h => absurd (hs.2.1 _ h) (by decide)
  cases fraction <;> simp [Segment.text, Decimal.positional, hwhole]

/-- The digits behind a point. -/
def fractionBehind (rest : Text) : Text := (rest.drop 1).takeWhile Char.isDigit

section

variable {source whole fraction whole' fraction' : Text} {xs ys : List Segment}

/-- What is read in front of a number is read in front of another one too. -/
theorem readBefore_number (h : segments source = xs ++ .number whole fraction :: ys)
    (hs : (Segment.number whole' fraction').Shaped) (rest : Text) :
    ReadBefore ((Segment.number whole' fraction').text ++ rest) xs := by
  have hread := readBefore_segments source
  rw [h, readBefore_append] at hread
  obtain ⟨hxs, hnumber, -⟩ := hread
  obtain ⟨d, t, htext, hd⟩ := exists_digit hnumber.1
  obtain ⟨e, u, htext', he⟩ := exists_digit hs
  rw [List.flatMap_cons, htext] at hxs
  rw [htext']
  exact readBefore_of_digits hxs hd he

/-- A number that gets no fraction from behind takes the place of another one. -/
theorem segments_reprinted (h : segments source = xs ++ .number whole fraction :: ys)
    (hs : (Segment.number whole' fraction').Shaped)
    (hfraction : fraction' = [] → ¬ Segment.StartsFraction (ys.flatMap Segment.text)) :
    segments (xs.flatMap Segment.text ++ ((Segment.number whole' fraction').text ++ ys.flatMap Segment.text)) =
      xs ++ .number whole' fraction' :: ys := by
  have hread := readBefore_segments source
  rw [h, readBefore_append] at hread
  obtain ⟨-, hnumber, hys⟩ := hread
  have hdigit := not_digit_behind hnumber.2
  rw [List.append_nil] at hdigit
  have hprescribed : (Segment.number whole' fraction').Prescribed (ys.flatMap Segment.text) := by
    cases fraction' with
    | nil => exact ⟨hs, hdigit, hfraction rfl⟩
    | cons d fraction' => exact ⟨hs, hdigit⟩
  have hback := segments_of_readBefore hys
  rw [List.append_nil] at hback
  rw [segments_of_readBefore (readBefore_number h hs _), Segment.segments_of_prescribed hprescribed, hback]
  simp [segments]

/-- In front of a point and a digit, a number without a fraction gets one. -/
theorem segments_fraction (h : segments source = xs ++ .number whole fraction :: ys)
    (hs : (Segment.number whole' []).Shaped) (hfraction : Segment.StartsFraction (ys.flatMap Segment.text)) :
    fractionBehind (ys.flatMap Segment.text) ≠ [] ∧
      ∃ zs, segments (xs.flatMap Segment.text ++ ((Segment.number whole' []).text ++ ys.flatMap Segment.text)) =
        xs ++ .number whole' (fractionBehind (ys.flatMap Segment.text)) :: zs := by
  obtain ⟨d, u, hbehind, hd⟩ := hfraction
  have hdigits : fractionBehind (ys.flatMap Segment.text) = d :: u.takeWhile Char.isDigit := by
    rw [hbehind, fractionBehind, List.drop_succ_cons, List.drop_zero, List.takeWhile_cons_of_pos hd]
  have hshaped : (Segment.number whole' (d :: u.takeWhile Char.isDigit)).Shaped := by
    refine ⟨hs.1, hs.2.1, ?_⟩
    intro c hc
    rcases List.mem_cons.mp hc with rfl | hc
    · exact hd
    · exact mem_takeWhile hc
  have htext : (Segment.number whole' []).text ++ ys.flatMap Segment.text =
      (Segment.number whole' (d :: u.takeWhile Char.isDigit)).text ++ u.dropWhile Char.isDigit := by
    simp [hbehind, Segment.text, Decimal.positional]
  rw [hdigits, htext, segments_of_readBefore (readBefore_number h hshaped _),
    Segment.segments_of_prescribed ⟨hshaped, fun c hc => not_of_head_dropWhile hc⟩]
  exact ⟨List.cons_ne_nil _ _, _, rfl⟩

/-- The tokens and the errors around a number. -/
theorem scan_number (h : segments source = xs ++ .number whole fraction :: ys) {line : Nat}
    (hline : line = 1 + Text.lineBreaks (xs.flatMap Segment.text)) :
    scan source =
      ⟨tokensFrom 1 xs ++ (numberForm whole fraction).onLine line ::
          (tokensFrom line ys ++ [.eof (line + Text.lineBreaks (ys.flatMap Segment.text))]),
        errorsFrom 1 xs ++ errorsFrom line ys⟩ := by
  have hmem : .number whole fraction ∈ segments source := by
    rw [h]
    exact List.mem_append_right _ List.mem_cons_self
  have htoken : (Segment.number whole fraction).token? line = some ((numberForm whole fraction).onLine line) := rfl
  have hbreaks : Text.lineBreaks (Segment.text (.number whole fraction)) = 0 :=
    List.count_eq_zero.mpr (no_break_of_token (shaped_of_mem_segments hmem) htoken nofun)
  have hsource := flatten_segments source
  rw [h, List.flatMap_append, List.flatMap_cons] at hsource
  have hend : 1 + source.lineBreaks = line + Text.lineBreaks (ys.flatMap Segment.text) := by
    rw [← hsource, Text.lineBreaks_append, Text.lineBreaks_append, hbreaks, hline]
    omega
  rw [scan_eq, h, hend, tokensFrom_append, errorsFrom_append, ← hline, tokensFrom_cons, errorsFrom_cons, hbreaks,
    Nat.add_zero, htoken, List.append_assoc]
  rfl

theorem scan_reprinted (h : segments source = xs ++ .number whole fraction :: ys)
    (hs : (Segment.number whole' fraction').Shaped)
    (hfraction : fraction' = [] → ¬ Segment.StartsFraction (ys.flatMap Segment.text)) {line : Nat}
    (hline : line = 1 + Text.lineBreaks (xs.flatMap Segment.text)) :
    scan (xs.flatMap Segment.text ++ ((Segment.number whole' fraction').text ++ ys.flatMap Segment.text)) =
      ⟨tokensFrom 1 xs ++ (numberForm whole' fraction').onLine line ::
          (tokensFrom line ys ++ [.eof (line + Text.lineBreaks (ys.flatMap Segment.text))]),
        (scan source).errors⟩ := by
  rw [scan_number (segments_reprinted h hs hfraction) hline, scan_number h hline]

end

/-! ## A number's lexeme replaced -/

/-- The source with `x` in the place of the span's text. -/
def replaced (source : Text) (p : Span) (x : Text) : Text := source.take p.start ++ (x ++ source.drop p.stop)

/-- In the place of the span's text, the digits `x` get a fraction from behind. -/
def TakesFraction (source : Text) (p : Span) (x : Text) : Prop :=
  '.' ∉ x ∧ Segment.StartsFraction (source.drop p.stop)

/-- What a source is scanned as when the lexeme of its number `t` gives way to the printed
    literal. -/
structure Reprinted (source : Text) (p : Span) (t : Token) (printed : Text) : Prop where
  /-- By itself, the printed literal is a number with the same literal. -/
  alone : scan printed = ⟨[⟨.number, printed, t.literal, 1⟩, .eof 1], []⟩
  /-- It changes no literal if it gets no fraction from behind. -/
  literals : ¬ TakesFraction source p printed →
    (scan (replaced source p printed)).tokens.map Token.literal = (scan source).tokens.map Token.literal
  /-- Then nothing changes but this lexeme. Else the number and its new fraction are one
      token, and in front of it nothing changes. -/
  inPlace : ∃ front back, (scan source).tokens = front ++ t :: back ∧
    (¬ TakesFraction source p printed →
      scan (replaced source p printed) = ⟨front ++ { t with lexeme := printed } :: back, (scan source).errors⟩) ∧
    (TakesFraction source p printed → ∃ u later, (scan (replaced source p printed)).tokens = front ++ u :: later ∧
      u.kind = .number ∧ u.lexeme = printed ++ '.' :: fractionBehind (source.drop p.stop) ∧
      u.literal = some (.number (.positive (Decimal.ofDigits printed (fractionBehind (source.drop p.stop))).nearest)) ∧
      u.line = t.line)

/-- A number among the segments, with the texts in front and behind. -/
theorem number_of_span {source : Text} {p : Span} {t : Token} (hp : p ∈ spans source) (ht : p.token? source = some t)
    (hk : t.kind = .number) :
    ∃ xs ys whole fraction, segments source = xs ++ .number whole fraction :: ys ∧
      source.take p.start = xs.flatMap Segment.text ∧ source.drop p.stop = ys.flatMap Segment.text ∧
      t = (numberForm whole fraction).onLine (1 + Text.lineBreaks (xs.flatMap Segment.text)) := by
  obtain ⟨xs, ys, hsegments, hstart, hstop⟩ := mem_spansFrom hp
  obtain ⟨whole, fraction, hnumber⟩ := Segment.number_of_token? ht hk
  have hfront : source.take p.start = xs.flatMap Segment.text := by
    conv => lhs; rw [← flatten_segments source, hsegments, hstart, Nat.zero_add, List.flatMap_append, List.take_left]
  have hline := line_eq_start hp ht (by rw [hk]; exact nofun)
  rw [lineAt, hfront] at hline
  rw [Span.token?, hnumber] at ht
  rw [hnumber] at hsegments hstop
  refine ⟨xs, ys, whole, fraction, hsegments, hfront, ?_, ?_⟩
  · conv => lhs; rw [← flatten_segments source, hsegments, hstop, hstart, Nat.zero_add, List.flatMap_append,
      List.flatMap_cons, ← List.append_assoc, ← List.length_append, List.drop_left]
  · rw [← hline]
    cases ht
    rfl

theorem reprinted_number {source : Text} {p : Span} {t : Token} (hp : p ∈ spans source) (ht : p.token? source = some t)
    (hk : t.kind = .number) (hfinite : t.literal ≠ some (.number (.positive .infinity))) :
    Reprinted source p t (Literal.shown? t.literal) := by
  obtain ⟨xs, ys, whole, fraction, hsegments, hfront, hback, rfl⟩ := number_of_span hp ht hk
  have hm : (Decimal.ofDigits whole fraction).nearest ≠ .infinity := by
    intro hm
    exact hfinite (by rw [← hm]; rfl)
  obtain ⟨whole', fraction', hs, hform⟩ := exists_numberSegment hm
  obtain ⟨line, hline⟩ : ∃ line, line = 1 + Text.lineBreaks (xs.flatMap Segment.text) := ⟨_, rfl⟩
  -- The printed literal is the text of the new segment.
  have hprinted : Literal.shown? ((numberForm whole fraction).onLine line).literal = (Segment.number whole' fraction').text :=
    (congrArg Form.lexeme hform).symm
  have hreplaced : replaced source p (Segment.number whole' fraction').text =
      xs.flatMap Segment.text ++ ((Segment.number whole' fraction').text ++ ys.flatMap Segment.text) := by
    rw [replaced, hfront, hback]
  have hscan := scan_number hsegments hline
  have hkept : ¬ TakesFraction source p (Segment.number whole' fraction').text →
      scan (replaced source p (Segment.number whole' fraction').text) =
        ⟨tokensFrom 1 xs ++ (numberForm whole' fraction').onLine line ::
            (tokensFrom line ys ++ [.eof (line + Text.lineBreaks (ys.flatMap Segment.text))]),
          (scan source).errors⟩ := by
    intro hnot
    rw [hreplaced]
    refine scan_reprinted hsegments hs ?_ hline
    intro hnone hstarts
    exact hnot ⟨(point_not_mem_iff hs).mpr hnone, by rwa [hback]⟩
  rw [← hline, hprinted]
  refine ⟨?_, ?_, ?_⟩
  · rw [← hprinted]
    exact scan_numberText hm
  · intro hnot
    rw [hkept hnot, hscan, hform]
    simp only [List.map_append, List.map_cons]
    rfl
  · refine ⟨_, _, congrArg Scan.tokens hscan, ?_, ?_⟩
    · intro hnot
      rw [hkept hnot, hform, ← hprinted]
      rfl
    · intro htakes
      obtain rfl := (point_not_mem_iff hs).mp htakes.1
      have hstarts := htakes.2
      rw [hback] at hstarts ⊢
      obtain ⟨hne, zs, hfraction⟩ := segments_fraction hsegments hs hstarts
      rw [hreplaced, scan_number hfraction hline]
      refine ⟨_, _, rfl, rfl, ?_, rfl, rfl⟩
      obtain ⟨d, u, hdigits⟩ := List.exists_cons_of_ne_nil hne
      rw [hdigits]
      rfl

/-- A number's text, in a literal as in a tree, is scanned as this number and nothing else
    if and only if the number is finite; infinity's is a name. A finite number token's
    printed literal in the place of its lexeme changes no literal, unless it has no point
    and a point and a digit are behind the lexeme. -/
theorem printed_numbers_read_back :
    (∀ m : Magnitude, (Expr.literal (.number (.positive m))).printed = (Literal.number (.positive m)).shown ∧
      ((∃ t, scan (Literal.number (.positive m)).shown = ⟨[t, .eof 1], []⟩ ∧ t.kind = .number ∧
          t.lexeme = (Literal.number (.positive m)).shown ∧ t.literal = some (.number (.positive m))) ↔ m ≠ .infinity)) ∧
      scan (Literal.number (.positive .infinity)).shown = ⟨[⟨.identifier, "inf".toList, none, 1⟩, .eof 1], []⟩ ∧
      ∀ source, ∀ t ∈ (scan source).tokens, t.kind = .number → t.literal ≠ some (.number (.positive .infinity)) →
        (∃ p ∈ spans source, p.token? source = some t) ∧
          ∀ p ∈ spans source, p.token? source = some t → Reprinted source p t (Literal.shown? t.literal) := by
  refine ⟨?_, scan_infinityText, ?_⟩
  · intro m
    refine ⟨rfl, ?_, ?_⟩
    · rintro ⟨t, hscan, hk, -, -⟩ rfl
      have htokens := congrArg Scan.tokens (hscan.symm.trans scan_infinityText)
      obtain rfl := (List.cons.inj htokens).1
      cases hk
    · intro hm
      exact ⟨_, scan_numberText hm, rfl, rfl, rfl⟩
  · intro source t ht hk hfinite
    constructor
    · refine (mem_tokens_iff.mp ht).resolve_right ?_
      rintro rfl
      cases hk
    · intro p hp hpt
      exact reprinted_number hp hpt hk hfinite

/-- Seven, with a zero behind its point. -/
def sevenPointZero : Token := ⟨.number, "7.0".toList, some (.number (.positive (.atMost 0x401C000000000000))), 1⟩

theorem read_back_sevenPointZero :
    sevenPointZero ∈ (scan "7.0.abs".toList).tokens ∧ Literal.shown? sevenPointZero.literal = "7".toList ∧
      scan "7".toList = ⟨[⟨.number, "7".toList, sevenPointZero.literal, 1⟩, .eof 1], []⟩ ∧
      (scan "7.abs".toList).tokens.map Token.literal = (scan "7.0.abs".toList).tokens.map Token.literal := by
  have hmem : sevenPointZero ∈ (scan "7.0.abs".toList).tokens := by decide +kernel
  have hshown : Literal.shown? sevenPointZero.literal = "7".toList := by decide +kernel
  have hsegments : segments "7.0.abs".toList = [.number ['7'] ['0'], .mark .dot, .word "abs".toList] := by decide +kernel
  have hspan : (⟨.number ['7'] ['0'], 0, 3⟩ : Span) ∈ spans "7.0.abs".toList := by
    rw [spans, hsegments]
    exact List.mem_cons_self
  obtain ⟨-, hreprinted⟩ := printed_numbers_read_back.2.2 _ _ hmem rfl (by decide +kernel)
  have h := hreprinted _ hspan (by decide +kernel)
  rw [hshown] at h
  refine ⟨hmem, hshown, h.alone, h.literals ?_⟩
  rintro ⟨-, hstarts⟩
  obtain ⟨c, hc, hd⟩ := startsFraction_point.mp hstarts
  obtain rfl : 'a' = c := Option.some.inj hc
  exact absurd hd (by decide)

/-- Of `1.0` in front of a point and a five, the printed literal takes these in. -/
theorem literals_pointLost :
    ¬ ∀ source, ∀ p ∈ spans source, ∀ t, p.token? source = some t → t.kind = .number →
      t.literal ≠ some (.number (.positive .infinity)) →
        (scan (replaced source p (Literal.shown? t.literal))).tokens.map Token.literal =
          (scan source).tokens.map Token.literal := by
  intro h
  have hsegments : segments "1.0.5".toList = [.number ['1'] ['0'], .mark .dot, .number ['5'] []] := by decide +kernel
  have hspan : (⟨.number ['1'] ['0'], 0, 3⟩ : Span) ∈ spans "1.0.5".toList := by
    rw [spans, hsegments]
    exact List.mem_cons_self
  exact absurd (h _ _ hspan _ rfl rfl (by decide +kernel)) (by decide +kernel)

end LoxFront
