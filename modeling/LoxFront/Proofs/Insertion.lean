/-
  LoxFront.Proofs.Insertion — blanks and comments put in beside a token.

  Trivia begin with a blank, say nothing and leave no comment that goes on behind them.
  Beside a token they cut no lexeme and make none go on, so the segments on either side
  stay (`segments_inserted`). What stands behind the place moves down by the line feeds put
  in, and nothing else changes.
-/

import LoxFront.Proofs.Lines
import LoxFront.Proofs.Seam

namespace LoxFront

/-! ## Trivia -/

/-- A text of blanks and comments that begins with a blank; its last comment is closed, a
    line comment by its line feed. -/
structure Trivia (w : Text) : Prop where
  starts : ∃ c ∈ w.head?, isBlank c
  tokens : (scan w).tokens.map Token.kind = [.eof]
  errors : (scan w).errors = []
  closed : ∀ s ∈ (segments w).getLast?, ¬ s.isOpen ∧ ∀ body, s ≠ .lineComment body

namespace Trivia

variable {w : Text}

theorem form?_eq_none (hw : Trivia w) : ∀ s ∈ segments w, s.form? = none := by
  have hforms : (segments w).filterMap Segment.form? = [] := by
    have hlength := congrArg List.length hw.tokens
    have hscan := congrArg List.length (forms_scan w)
    rw [List.length_map] at hlength hscan
    rw [hlength, List.length_append] at hscan
    exact List.eq_nil_of_length_eq_zero (Nat.succ.inj hscan).symm
  exact List.filterMap_eq_nil_iff.mp hforms

theorem tokensFrom_eq_nil (hw : Trivia w) (line : Nat) : tokensFrom line (segments w) = [] := by
  rw [← List.map_eq_nil_iff (f := Token.form), forms_tokensFrom]
  exact List.filterMap_eq_nil_iff.mpr hw.form?_eq_none

theorem errorsFrom_eq_nil (hw : Trivia w) (k : Nat) : errorsFrom (1 + k) (segments w) = [] := by
  have herrors := hw.errors
  rw [scan_eq] at herrors
  rw [errorsFrom_shifted]
  exact List.map_eq_nil_iff.mpr herrors

/-- No text behind trivia changes how they are read. -/
theorem readBefore (hw : Trivia w) (rest : Text) : ReadBefore rest (segments w) := by
  have hne : w ≠ [] := by
    rintro rfl
    obtain ⟨c, hc, -⟩ := hw.starts
    cases hc
  obtain ⟨segs, s, hsegs, -, hs, hread⟩ := exists_last hne
  obtain ⟨hopen, hline⟩ := hw.closed s (by simp [hsegs])
  have hform : s.form? = none := hw.form?_eq_none s (by simp [hsegs])
  rw [hsegs, readBefore_append, List.flatMap_singleton]
  constructor
  · refine readBefore_appended hs.text_ne_nil hread ?_ rest
    intro hpoint
    rw [eq_point_of_head hs hpoint] at hform
    cases hform
  · refine ⟨⟨hs, ?_⟩, trivial⟩
    cases s with
    | mark | word | number | string => cases hform
    | openString | openComment => exact absurd rfl hopen
    | lineComment body => exact absurd rfl (hline body)
    | blockComment | blank | unexpected => trivial

end Trivia

/-! ## Beside a token -/

/-- The place between the segments `xs` and `ys` of the source, where any blank ends the
    segment in front. -/
structure Gap (source : Text) (i : Nat) (xs ys : List Segment) : Prop where
  segments_eq : segments source = xs ++ ys
  place : (xs.flatMap Segment.text).length = i
  ended : ∀ s ∈ xs.getLast?, ∀ c, isBlank c → s.EndedBy c

def inserted (source w : Text) (i : Nat) : Text := source.take i ++ (w ++ source.drop i)

namespace Gap

variable {source w : Text} {i : Nat} {xs ys : List Segment}

theorem source_eq (h : Gap source i xs ys) : source = xs.flatMap Segment.text ++ ys.flatMap Segment.text := by
  rw [← List.flatMap_append, ← h.segments_eq, flatten_segments]

theorem inserted_eq (h : Gap source i xs ys) (w : Text) :
    inserted source w i = xs.flatMap Segment.text ++ (w ++ ys.flatMap Segment.text) := by
  rw [inserted, h.source_eq, ← h.place, List.take_left, List.drop_left]

/-- Between the segments on either side, trivia are read as they are by themselves. -/
theorem segments_inserted (h : Gap source i xs ys) (hw : Trivia w) :
    segments (inserted source w i) = xs ++ (segments w ++ ys) := by
  have hsplit := readBefore_segments source
  rw [h.segments_eq, readBefore_append, List.append_nil] at hsplit
  obtain ⟨hxs, hys⟩ := hsplit
  have hfront : ReadBefore (w ++ ys.flatMap Segment.text) xs := by
    obtain ⟨c, hc, hblank⟩ := hw.starts
    obtain ⟨t, rfl⟩ := List.head?_eq_some_iff.mp hc
    exact readBefore_blank hxs hblank (fun s hs => h.ended s hs c hblank) _
  have hback := segments_of_readBefore hys
  rw [List.append_nil] at hback
  rw [h.inserted_eq, segments_of_readBefore hfront, segments_append (hw.readBefore _), hback]
  simp [segments]

theorem spans_eq (h : Gap source i xs ys) : spans source = spansFrom 0 xs ++ spansFrom i ys := by
  rw [spans, h.segments_eq, spansFrom_append, Nat.zero_add, h.place]

theorem stop_le (h : Gap source i xs ys) : ∀ p ∈ spansFrom 0 xs, p.stop ≤ i := by
  intro p hp
  obtain ⟨before, after, rfl, hstart, hstop⟩ := mem_spansFrom hp
  rw [← h.place, hstop, hstart, List.flatMap_append, List.flatMap_cons, List.length_append, List.length_append]
  omega

theorem lt_stop (h : Gap source i xs ys) : ∀ p ∈ spansFrom i ys, i ≤ p.start ∧ i < p.stop := by
  intro p hp
  have hmem : p ∈ spans source := by
    rw [h.spans_eq]
    exact List.mem_append_right _ hp
  have hstart := start_le_of_mem_spansFrom hp
  have hstop := (start_lt_stop hmem).1
  omega

/-- Each segment on either side, with the line it ends on. -/
theorem endLines_sides (h : Gap source i xs ys) :
    endLines 1 xs = (spansFrom 0 xs).map (fun p => (p.segment, lineAt source p.stop)) ∧
      endLines (1 + Text.lineBreaks (xs.flatMap Segment.text)) ys =
        (spansFrom i ys).map fun p => (p.segment, lineAt source p.stop) := by
  have hback := endLines_eq_spans (xs.flatMap Segment.text) ys
  rw [← h.source_eq, h.place] at hback
  have hwhole := endLines_eq source
  rw [h.segments_eq, endLines_append, h.spans_eq, List.map_append, ← hback] at hwhole
  exact ⟨List.append_cancel_right hwhole, hback⟩

theorem tokens_sides (h : Gap source i xs ys) :
    tokensFrom 1 xs = (spansFrom 0 xs).filterMap (Span.token? source) ∧
      tokensFrom (1 + Text.lineBreaks (xs.flatMap Segment.text)) ys = (spansFrom i ys).filterMap (Span.token? source) := by
  rw [tokensFrom, tokensFrom, h.endLines_sides.1, h.endLines_sides.2, List.filterMap_map, List.filterMap_map]
  exact ⟨rfl, rfl⟩

theorem errors_sides (h : Gap source i xs ys) :
    errorsFrom 1 xs = (spansFrom 0 xs).filterMap (Span.error? source) ∧
      errorsFrom (1 + Text.lineBreaks (xs.flatMap Segment.text)) ys = (spansFrom i ys).filterMap (Span.error? source) := by
  have hmem := h.spans_eq
  rw [errorsFrom, errorsFrom, h.endLines_sides.1, h.endLines_sides.2, List.filterMap_map, List.filterMap_map]
  constructor
  · exact List.filterMap_congr fun p hp => error?_eq (by rw [hmem]; exact List.mem_append_left _ hp)
  · exact List.filterMap_congr fun p hp => error?_eq (by rw [hmem]; exact List.mem_append_right _ hp)

end Gap

/-- By how much the lines of a span grow when `w` is put in at place `i`: not at all in
    front of it. -/
def Span.growth (w : Text) (i : Nat) (p : Span) : Nat := if p.stop ≤ i then 0 else w.lineBreaks

theorem Gap.filterMap_growth {source : Text} {i : Nat} {xs ys : List Segment} (h : Gap source i xs ys) (w : Text)
    {α : Type} (f : Span → Option α) {shift : Nat → α → α} (hzero : ∀ a, shift 0 a = a) :
    (spans source).filterMap (fun p => (f p).map (shift (p.growth w i))) =
      (spansFrom 0 xs).filterMap f ++ ((spansFrom i ys).filterMap f).map (shift w.lineBreaks) := by
  rw [h.spans_eq, List.filterMap_append, List.map_filterMap]
  congr 1
  · refine List.filterMap_congr fun p hp => ?_
    have hid : shift 0 = id := funext hzero
    rw [Span.growth, if_pos (h.stop_le p hp), hid, Option.map_id]
    rfl
  · refine List.filterMap_congr fun p hp => ?_
    rw [Span.growth, if_neg (Nat.not_le_of_lt (h.lt_stop p hp).2)]

/-- A token does not begin with a blank. -/
theorem Segment.not_isBlank_of_head {s : Segment} {f : Form} (hs : s.Shaped) (hform : s.form? = some f) {c : Char}
    (hc : c ∈ s.text.head?) : ¬ isBlank c := by
  intro hblank
  cases s <;> cases hform
  case mark.refl m => cases m <;> cases hc <;> exact absurd hblank (by decide)
  case word.refl t =>
    obtain ⟨d, u, rfl, hd, -⟩ := hs
    cases hc
    exact not_isWordPart_of_isBlank hblank (isWordPart_of_isWordStart hd)
  case number.refl => exact not_isWordPart_of_isBlank hblank (isWordPart_of_isDigit (isDigit_of_head hs hc))
  case string.refl body =>
    cases hc
    exact absurd hblank (by decide)

/-- On either side of a token is a gap. -/
theorem exists_gap {source : Text} {p : Span} {t : Token} {i : Nat} (hp : p ∈ spans source)
    (ht : p.token? source = some t) (hi : i = p.start ∨ i = p.stop) : ∃ xs ys, Gap source i xs ys := by
  obtain ⟨before, after, hsegs, hstart, hstop⟩ := mem_spansFrom hp
  obtain ⟨f, hform⟩ : ∃ f, p.segment.form? = some f := by
    rw [Span.token?, Segment.token?_eq] at ht
    obtain ⟨f, hf, -⟩ := Option.map_eq_some_iff.mp ht
    exact ⟨f, hf⟩
  have hread := readBefore_segments source
  rw [hsegs, readBefore_append] at hread
  obtain ⟨hbefore, hsegment, -⟩ := hread
  rw [Nat.zero_add] at hstart
  rcases hi with rfl | rfl
  · refine ⟨before, p.segment :: after, hsegs, hstart.symm, ?_⟩
    intro s hs c hc
    obtain ⟨front, rfl⟩ := List.getLast?_eq_some_iff.mp hs
    obtain ⟨d, u, hd⟩ := List.exists_cons_of_ne_nil hsegment.1.text_ne_nil
    rw [List.flatMap_cons, hd] at hbefore
    have hopen := not_isOpen_of_readBefore hbefore (List.cons_ne_nil _ _) s (by simp)
    refine Segment.endedBy_blank hopen ?_ hc
    -- A line comment would stop at a line feed, and no token begins with one.
    rintro body rfl
    obtain ⟨-, ⟨-, hstop⟩, -⟩ := readBefore_append.mp hbefore
    obtain rfl : d = '\n' := hstop d rfl
    exact Segment.not_isBlank_of_head hsegment.1 hform (c := '\n') (by rw [hd]; rfl) rfl
  · refine ⟨before ++ [p.segment], after, by rw [hsegs]; simp, ?_, ?_⟩
    · rw [List.flatMap_append, List.flatMap_singleton, List.length_append, ← hstart, hstop]
    · intro s hs c hc
      rw [List.getLast?_concat] at hs
      cases hs
      exact Segment.endedBy_of_form? hform hc

/-! ## Nothing but lines changes -/

/-- Text put in at a place changes no token and no error but for their lines, and these
    only behind the place, by the line feeds put in. -/
structure Invisible (source w : Text) (i : Nat) : Prop where
  /-- Each lexeme is in front of the place or behind it. -/
  apart : ∀ p ∈ spans source, p.stop ≤ i ∨ i ≤ p.start
  forms : (scan (inserted source w i)).tokens.map Token.form = (scan source).tokens.map Token.form
  messages : (scan (inserted source w i)).errors.map LexicalError.message = (scan source).errors.map LexicalError.message
  tokens : (scan (inserted source w i)).tokens =
    ((spans source).filterMap fun p => (p.token? source).map (Token.shifted (p.growth w i))) ++
      [.eof (1 + source.lineBreaks + w.lineBreaks)]
  errors : (scan (inserted source w i)).errors =
    (spans source).filterMap fun p => (p.error? source).map (LexicalError.shifted (p.growth w i))

theorem invisible_of_gap {source w : Text} {i : Nat} {xs ys : List Segment} (h : Gap source i xs ys) (hw : Trivia w) :
    Invisible source w i := by
  have hlines : (inserted source w i).lineBreaks = source.lineBreaks + w.lineBreaks := by
    rw [h.inserted_eq]
    conv => rhs; rw [h.source_eq]
    simp only [Text.lineBreaks_append]
    omega
  have htokens : (scan (inserted source w i)).tokens =
      ((spans source).filterMap fun p => (p.token? source).map (Token.shifted (p.growth w i))) ++
        [.eof (1 + source.lineBreaks + w.lineBreaks)] := by
    rw [scan_eq, h.segments_inserted hw, tokensFrom_append, tokensFrom_append, hw.tokensFrom_eq_nil, List.nil_append,
      flatten_segments, tokensFrom_shifted, h.tokens_sides.1, h.tokens_sides.2, h.filterMap_growth w _ Token.shifted_zero,
      hlines, Nat.add_assoc]
  have herrors : (scan (inserted source w i)).errors =
      (spans source).filterMap fun p => (p.error? source).map (LexicalError.shifted (p.growth w i)) := by
    rw [scan_eq, h.segments_inserted hw, errorsFrom_append, errorsFrom_append, hw.errorsFrom_eq_nil, List.nil_append,
      flatten_segments, errorsFrom_shifted, h.errors_sides.1, h.errors_sides.2, h.filterMap_growth w _ LexicalError.shifted_zero]
  refine ⟨?_, ?_, ?_, htokens, herrors⟩
  · intro p hp
    rw [h.spans_eq, List.mem_append] at hp
    exact hp.imp (h.stop_le p) fun hback => (h.lt_stop p hback).1
  · rw [htokens, tokens_eq_spans, List.map_append, List.map_append, List.map_filterMap, List.map_filterMap]
    simp only [Option.map_map]
    rfl
  · rw [herrors, errors_eq_places, List.map_filterMap, List.map_filterMap]
    simp only [Option.map_map, Function.comp_def, LexicalError.message_shifted]

/-- Trivia put in directly in front of a token's lexeme or directly behind it change no
    kind, lexeme or literal of a token and no message, and lines only behind them, by the
    line feeds they hold. -/
theorem inserted_invisible {source w : Text} {p : Span} {t : Token} {i : Nat} (hp : p ∈ spans source)
    (ht : p.token? source = some t) (hi : i = p.start ∨ i = p.stop) (hw : Trivia w) : Invisible source w i := by
  obtain ⟨xs, ys, hgap⟩ := exists_gap hp ht hi
  exact invisible_of_gap hgap hw

/-- A comment over two lines on either side of a word, with errors behind it. -/
theorem inserted_besideWord :
    Trivia "\t/*\n*/".toList ∧ Invisible "!x//c\n@\"y".toList "\t/*\n*/".toList 1 ∧
      (scan (inserted "!x//c\n@\"y".toList "\t/*\n*/".toList 2)).tokens =
        [⟨.mark .bang, ['!'], none, 1⟩, ⟨.identifier, ['x'], none, 1⟩, .eof 3] ∧
      (scan (inserted "!x//c\n@\"y".toList "\t/*\n*/".toList 2)).errors = [.unexpected 3 '@', .unterminated 3] := by
  have htrivia : Trivia "\t/*\n*/".toList := by
    have hsegs : segments "\t/*\n*/".toList = [.blank '\t', .blockComment ['\n']] := by decide +kernel
    refine ⟨⟨'\t', rfl, rfl⟩, by decide +kernel, by decide +kernel, ?_⟩
    intro s hs
    rw [hsegs] at hs
    cases hs
    exact ⟨nofun, nofun⟩
  have hword : (⟨.word ['x'], 1, 2⟩ : Span) ∈ spans "!x//c\n@\"y".toList := by
    have hsegs : segments "!x//c\n@\"y".toList =
        [.mark .bang, .word ['x'], .lineComment ['c'], .blank '\n', .unexpected '@', .openString ['y']] := by decide +kernel
    rw [spans, hsegs]
    exact .tail _ (.head _)
  have hfront := inserted_invisible hword rfl (.inl rfl) htrivia
  have hback := inserted_invisible hword rfl (.inr rfl) htrivia
  exact ⟨htrivia, hfront, hback.tokens.trans (by decide +kernel), hback.errors.trans (by decide +kernel)⟩

end LoxFront
