/-
  LoxFront.Proofs.Lines — where in the source tokens and errors stand, and on which lines.

  A span is a segment with its places in the source. The line of a place is one more than
  the line feeds in front of it, so lines grow with places (`lineAt_mono`), and every line
  in a scan is the line of a place: where a token ends, where an unexpected character
  stands, where the source ends. A string without an end is the last span, as it takes the
  whole rest (`last_of_openString`). Spans stand one behind the other, so what they say is
  in the order of its lines (`sorted_filterMap`).
-/

import Mathlib.Data.List.Basic
import LoxFront.Proofs.Grammar

namespace LoxFront

/-! ## Places and their lines -/

/-- The line of the place in front of which `n` characters stand. -/
def lineAt (source : Text) (n : Nat) : Nat := 1 + Text.lineBreaks (source.take n)

theorem lineAt_mono {source : Text} {m n : Nat} (h : m ≤ n) : lineAt source m ≤ lineAt source n := by
  have htake : source.take m = (source.take n).take m := by rw [List.take_take, Nat.min_eq_left h]
  have hcount := (List.take_sublist m (source.take n)).count_le '\n'
  rw [← htake] at hcount
  exact Nat.add_le_add_left hcount 1

theorem lineAt_append (t u : Text) : lineAt (t ++ u) t.length = 1 + t.lineBreaks := by simp [lineAt]

theorem lineAt_end (source : Text) : lineAt source source.length = 1 + source.lineBreaks := by simp [lineAt]

/-! ## Spans -/

/-- A segment and the places of its text, from `start` to in front of `stop`. -/
structure Span where
  segment : Segment
  start : Nat
  stop : Nat

def spansFrom (start : Nat) : List Segment → List Span
  | [] => []
  | s :: segs => ⟨s, start, start + s.text.length⟩ :: spansFrom (start + s.text.length) segs

def spans (source : Text) : List Span := spansFrom 0 (segments source)

theorem spansFrom_append (start : Nat) (xs ys : List Segment) :
    spansFrom start (xs ++ ys) = spansFrom start xs ++ spansFrom (start + (xs.flatMap Segment.text).length) ys := by
  induction xs generalizing start with
  | nil => rfl
  | cons s xs ih =>
    rw [List.cons_append, spansFrom, spansFrom, ih, List.cons_append, List.flatMap_cons, List.length_append, Nat.add_assoc]

theorem endLines_eq_spans (before : Text) (segs : List Segment) :
    endLines (1 + before.lineBreaks) segs =
      (spansFrom before.length segs).map fun p => (p.segment, lineAt (before ++ segs.flatMap Segment.text) p.stop) := by
  induction segs generalizing before with
  | nil => rfl
  | cons s segs ih =>
    have hrest := ih (before ++ s.text)
    have hline := lineAt_append (before ++ s.text) (segs.flatMap Segment.text)
    rw [List.length_append, List.append_assoc, Text.lineBreaks_append, ← Nat.add_assoc] at hrest hline
    rw [endLines, spansFrom, List.map_cons, List.flatMap_cons, hline, hrest]

theorem endLines_eq (source : Text) :
    endLines 1 (segments source) = (spans source).map fun p => (p.segment, lineAt source p.stop) := by
  have h := endLines_eq_spans [] (segments source)
  rw [List.nil_append, flatten_segments] at h
  exact h

theorem mem_spansFrom {start : Nat} {segs : List Segment} {p : Span} (h : p ∈ spansFrom start segs) :
    ∃ before after, segs = before ++ p.segment :: after ∧ p.start = start + (before.flatMap Segment.text).length ∧
      p.stop = p.start + p.segment.text.length := by
  induction segs generalizing start with
  | nil => cases h
  | cons s segs ih =>
    rcases List.mem_cons.mp h with rfl | h
    · exact ⟨[], segs, rfl, rfl, rfl⟩
    · obtain ⟨before, after, rfl, hstart, hstop⟩ := ih h
      refine ⟨s :: before, after, rfl, ?_, hstop⟩
      rw [hstart, List.flatMap_cons, List.length_append, Nat.add_assoc]

/-- A span of the source cuts it in three; the grammar prescribes the segment in the middle. -/
theorem mem_spans {source : Text} {p : Span} (h : p ∈ spans source) :
    ∃ before after, source = before ++ p.segment.text ++ after ∧ p.start = before.length ∧
      p.stop = (before ++ p.segment.text).length ∧ p.segment.Prescribed after := by
  obtain ⟨before, after, hsplit, hstart, hstop⟩ := mem_spansFrom h
  refine ⟨before.flatMap Segment.text, after.flatMap Segment.text, ?_, by simp [hstart], by simp [hstop, hstart],
    (lexes_segments source).prescribed before p.segment after hsplit⟩
  rw [← flatten_segments source, hsplit]
  simp

theorem start_lt_stop {source : Text} {p : Span} (h : p ∈ spans source) : p.start < p.stop ∧ p.stop ≤ source.length := by
  obtain ⟨before, after, rfl, hstart, hstop, hprescribed⟩ := mem_spans h
  have hpos := List.length_pos_iff.mpr hprescribed.1.text_ne_nil
  simp only [hstart, hstop, List.length_append]
  omega

theorem start_le_of_mem_spansFrom {start : Nat} {segs : List Segment} {p : Span} (h : p ∈ spansFrom start segs) :
    start ≤ p.start := by
  obtain ⟨before, after, -, hstart, -⟩ := mem_spansFrom h
  omega

theorem ordered_spansFrom (start : Nat) (segs : List Segment) :
    (spansFrom start segs).Pairwise fun p q => p.stop ≤ q.start := by
  induction segs generalizing start with
  | nil => exact .nil
  | cons s segs ih => exact .cons (fun q hq => start_le_of_mem_spansFrom hq) (ih _)

/-! ## Tokens and errors in their places -/

/-- The token of a span, on the line where it ends. -/
def Span.token? (source : Text) (p : Span) : Option Token := p.segment.token? (lineAt source p.stop)

/-- The error of a span: an unexpected character on its own line, a string without an end
    on the last line of the source. -/
def Span.error? (source : Text) (p : Span) : Option LexicalError :=
  match p.segment with
  | .unexpected c => some (.unexpected (lineAt source p.start) c)
  | .openString _ => some (.unterminated (1 + source.lineBreaks))
  | _ => none

theorem tokens_eq_spans (source : Text) :
    (scan source).tokens = (spans source).filterMap (Span.token? source) ++ [.eof (1 + source.lineBreaks)] := by
  rw [scan_eq, tokensFrom, endLines_eq, List.filterMap_map]
  rfl

/-- A token of a scan is that of a span, or the end of the source. -/
theorem mem_tokens_iff {source : Text} {t : Token} :
    t ∈ (scan source).tokens ↔ (∃ p ∈ spans source, p.token? source = some t) ∨ t = .eof (1 + source.lineBreaks) := by
  rw [tokens_eq_spans, List.mem_append, List.mem_filterMap, List.mem_singleton]

theorem errors_eq_spans (source : Text) :
    (scan source).errors = (spans source).filterMap fun p => p.segment.error? (lineAt source p.stop) := by
  rw [scan_eq, errorsFrom, endLines_eq, List.filterMap_map]
  rfl

theorem lineAt_stop {source : Text} {p : Span} (h : p ∈ spans source) :
    lineAt source p.stop = lineAt source p.start + p.segment.text.lineBreaks := by
  obtain ⟨before, after, rfl, hstart, hstop, -⟩ := mem_spans h
  rw [hstop, lineAt_append, hstart, List.append_assoc, lineAt_append, Text.lineBreaks_append, Nat.add_assoc]

theorem stop_of_openString {source : Text} {p : Span} {body : Text} (h : p ∈ spans source)
    (hp : p.segment = .openString body) : p.stop = source.length := by
  obtain ⟨before, after, rfl, -, hstop, hprescribed⟩ := mem_spans h
  rw [hp] at hprescribed
  obtain rfl : after = [] := hprescribed.2
  rw [hstop, List.append_nil]

theorem error?_eq {source : Text} {p : Span} (h : p ∈ spans source) :
    p.segment.error? (lineAt source p.stop) = p.error? source := by
  unfold Span.error?
  cases hp : p.segment with
  | unexpected c =>
    obtain ⟨before, after, -, -, -, hprescribed⟩ := mem_spans h
    rw [hp] at hprescribed
    have hbreak : c ≠ '\n' := by
      rintro rfl
      exact hprescribed.1.1 rfl
    have hline : Text.lineBreaks [c] = 0 := List.count_eq_zero.mpr (by simpa using hbreak.symm)
    simp [Segment.error?, lineAt_stop h, hp, Segment.text, hline]
  | openString body => simp [Segment.error?, stop_of_openString h hp, lineAt_end]
  | _ => rfl

/-- Behind a string without an end there is nothing, and no other string lacks its end. -/
theorem last_of_openString {source : Text} {earlier later : List Span} {p : Span} {body : Text}
    (h : spans source = earlier ++ p :: later) (hp : p.segment = .openString body) :
    later = [] ∧ ∀ q ∈ earlier, q.stop ≤ p.start ∧ ∀ b, q.segment ≠ .openString b := by
  have hmem : ∀ q, q ∈ earlier ∨ q = p ∨ q ∈ later → q ∈ spans source := by
    intro q hq
    rw [h]
    simpa using hq
  have hstop := stop_of_openString (hmem p (.inr (.inl rfl))) hp
  have hplace := start_lt_stop (hmem p (.inr (.inl rfl)))
  have hordered : (earlier ++ p :: later).Pairwise fun p q => p.stop ≤ q.start := h ▸ ordered_spansFrom 0 _
  rw [List.pairwise_append, List.pairwise_cons] at hordered
  obtain ⟨-, ⟨hlater, -⟩, hearlier⟩ := hordered
  constructor
  · cases later with
    | nil => rfl
    | cons q later =>
      have hq := start_lt_stop (hmem q (.inr (.inr List.mem_cons_self)))
      have hpq := hlater q List.mem_cons_self
      omega
  · intro q hq
    have hqp := hearlier q hq p List.mem_cons_self
    refine ⟨hqp, fun b hb => ?_⟩
    have hend := stop_of_openString (hmem q (.inl hq)) hb
    omega

theorem no_break_of_token {s : Segment} {line : Nat} {t : Token} (hs : s.Shaped) (ht : s.token? line = some t)
    (hk : t.kind ≠ .string) : '\n' ∉ s.text := by
  cases s <;> cases ht
  case mark.refl m => cases m <;> decide
  case word.refl w =>
    obtain ⟨c, u, rfl, hc, hu⟩ := hs
    intro h
    rcases List.mem_cons.mp h with rfl | h
    · exact absurd hc (by decide)
    · exact absurd (hu _ h) (by decide)
  case number.refl whole fraction =>
    obtain ⟨-, hw, hf⟩ := hs
    have hwhole : '\n' ∉ whole := fun h => absurd (hw _ h) (by decide)
    have hfraction : '\n' ∉ fraction := fun h => absurd (hf _ h) (by decide)
    cases fraction with
    | nil => simpa [Segment.text, Decimal.positional] using hwhole
    | cons d fraction =>
      simp only [Segment.text, Decimal.positional, List.isEmpty_cons, Bool.false_eq_true, if_false, List.mem_append, not_or]
      exact ⟨hwhole, fun h => (List.mem_cons.mp h).elim (by decide) hfraction⟩
  case string.refl body => exact absurd rfl hk

theorem slice_of_mem_spans {source : Text} {p : Span} (h : p ∈ spans source) :
    (source.take p.stop).drop p.start = p.segment.text := by
  obtain ⟨before, after, rfl, hstart, hstop, -⟩ := mem_spans h
  rw [hstop, List.take_left, hstart, List.drop_left]

theorem line_eq_start {source : Text} {p : Span} {t : Token} (h : p ∈ spans source)
    (ht : p.token? source = some t) (hk : t.kind ≠ .string) : t.line = lineAt source p.start := by
  obtain ⟨_, _, _, _, _, hprescribed⟩ := mem_spans h
  have hbreak := no_break_of_token hprescribed.1 ht hk
  rw [Segment.line_of_token? ht, lineAt_stop h, Text.lineBreaks, List.count_eq_zero.mpr hbreak, Nat.add_zero]

/-- A string ends with its closing quotation mark, which is no line feed. -/
theorem line_eq_closing {source : Text} {p : Span} {t : Token} (h : p ∈ spans source)
    (ht : p.token? source = some t) (hk : t.kind = .string) :
    source[p.stop - 1]? = some '"' ∧ t.line = lineAt source (p.stop - 1) := by
  rw [Segment.line_of_token? ht]
  obtain ⟨body, hbody⟩ := Segment.string_of_token? ht hk
  obtain ⟨before, after, hsource, -, hstop, -⟩ := mem_spans h
  obtain ⟨front, hfront⟩ : ∃ front, front = before ++ '"' :: body := ⟨_, rfl⟩
  have htext : before ++ p.segment.text = front ++ ['"'] := by simp [hbody, Segment.text, hfront]
  rw [htext] at hsource hstop
  have hclosing : p.stop - 1 = front.length := by simp [hstop]
  have hquote : Text.lineBreaks ['"'] = 0 := rfl
  rw [hclosing, hstop, hsource]
  constructor
  · simp
  · rw [lineAt_append, List.append_assoc, lineAt_append, Text.lineBreaks_append, hquote, Nat.add_zero]

/-- What the spans say in the order of their ends is in the order of its lines. -/
theorem sorted_filterMap {α : Type} {source : Text} {f : Span → Option α} {line : α → Nat}
    (hf : ∀ p a, f p = some a → line a = lineAt source p.stop) :
    (((spans source).filterMap f).map line).Pairwise (· ≤ ·) := by
  rw [List.pairwise_map, List.pairwise_filterMap]
  refine (ordered_spansFrom 0 _).imp_of_mem fun {p q} hp hq hpq a ha b hb => ?_
  have hplace := start_lt_stop hq
  rw [hf p a ha, hf q b hb]
  exact lineAt_mono (by omega)

/-! ## All lines of a scan -/

/-- What the lines of a scan say about the places in its source. -/
structure LineNumbers (source : Text) : Prop where
  /-- The spans have their own text in the source, one behind the other. -/
  slices : ∀ p ∈ spans source, (source.take p.stop).drop p.start = p.segment.text
  ordered : (spans source).Pairwise fun p q => p.stop ≤ q.start
  /-- The tokens are those of the spans, and the end of the source on the last line. -/
  tokens : (scan source).tokens = (spans source).filterMap (Span.token? source) ++ [.eof (1 + source.lineBreaks)]
  /-- A token is on the line where its lexeme ends. -/
  ends : ∀ p ∈ spans source, ∀ t, p.token? source = some t →
    t.lexeme = (source.take p.stop).drop p.start ∧ t.line = lineAt source p.stop
  /-- Other tokens than strings also start on their line. -/
  starts : ∀ p ∈ spans source, ∀ t, p.token? source = some t → t.kind ≠ .string →
    t.line = lineAt source p.start
  /-- A string is on the line of its closing quotation mark. -/
  closings : ∀ p ∈ spans source, ∀ t, p.token? source = some t → t.kind = .string →
    source[p.stop - 1]? = some '"' ∧ t.line = lineAt source (p.stop - 1)
  errors : (scan source).errors = (spans source).filterMap (Span.error? source)
  /-- A string without an end is reported once and last, and every token ends in front of
      its opening quotation mark. -/
  unterminated : ∀ line, .unterminated line ∈ (scan source).errors →
    line = 1 + source.lineBreaks ∧
      (∃ earlier, (scan source).errors = earlier ++ [.unterminated line] ∧ ∀ l, .unterminated l ∉ earlier) ∧
      ∃ p ∈ spans source, p.segment = .openString (source.drop (p.start + 1)) ∧
        ∀ q ∈ spans source, ∀ t, q.token? source = some t → q.stop ≤ p.start
  tokens_sorted : ((scan source).tokens.map Token.line).Pairwise (· ≤ ·)
  errors_sorted : ((scan source).errors.map LexicalError.line).Pairwise (· ≤ ·)

theorem errors_eq_places (source : Text) : (scan source).errors = (spans source).filterMap (Span.error? source) := by
  rw [errors_eq_spans]
  exact List.filterMap_congr fun p hp => error?_eq hp

theorem openString_of_unterminated {source : Text} {p : Span} {line : Nat}
    (h : p.error? source = some (.unterminated line)) :
    line = 1 + source.lineBreaks ∧ ∃ body, p.segment = .openString body := by
  unfold Span.error? at h
  cases hp : p.segment <;> rw [hp] at h <;> cases h
  exact ⟨rfl, _, rfl⟩

theorem body_of_openString {source : Text} {p : Span} {body : Text} (h : p ∈ spans source)
    (hp : p.segment = .openString body) : body = source.drop (p.start + 1) := by
  obtain ⟨before, after, rfl, hstart, -, hprescribed⟩ := mem_spans h
  rw [hp] at hprescribed ⊢
  obtain rfl : after = [] := hprescribed.2
  simp [hstart, Segment.text]

theorem unterminated_last {source : Text} {line : Nat} (h : .unterminated line ∈ (scan source).errors) :
    line = 1 + source.lineBreaks ∧
      (∃ earlier, (scan source).errors = earlier ++ [.unterminated line] ∧ ∀ l, .unterminated l ∉ earlier) ∧
      ∃ p ∈ spans source, p.segment = .openString (source.drop (p.start + 1)) ∧
        ∀ q ∈ spans source, ∀ t, q.token? source = some t → q.stop ≤ p.start := by
  rw [errors_eq_places] at h ⊢
  obtain ⟨p, hp, herror⟩ := List.mem_filterMap.mp h
  obtain ⟨hline, body, hbody⟩ := openString_of_unterminated herror
  obtain ⟨earlier, later, hsplit⟩ := List.append_of_mem hp
  obtain ⟨rfl, hearlier⟩ := last_of_openString hsplit hbody
  refine ⟨hline, ⟨earlier.filterMap (Span.error? source), ?_, ?_⟩, p, hp, ?_, ?_⟩
  · rw [hsplit, List.filterMap_append, List.filterMap_cons_some herror, List.filterMap_nil]
  · intro l hl
    obtain ⟨q, hq, hqerror⟩ := List.mem_filterMap.mp hl
    obtain ⟨-, b, hb⟩ := openString_of_unterminated hqerror
    exact (hearlier q hq).2 b hb
  · rw [hbody, ← body_of_openString hp hbody]
  · intro q hq t ht
    rw [hsplit, List.mem_append, List.mem_singleton] at hq
    rcases hq with hq | rfl
    · exact (hearlier q hq).1
    · rw [Span.token?, hbody] at ht
      cases ht

theorem sorted_tokens (source : Text) : ((scan source).tokens.map Token.line).Pairwise (· ≤ ·) := by
  rw [tokens_eq_spans, List.map_append, List.pairwise_append]
  refine ⟨sorted_filterMap fun _ _ ht => Segment.line_of_token? ht, List.pairwise_singleton _ _, ?_⟩
  intro line hline last hlast
  obtain rfl : last = 1 + source.lineBreaks := by simpa [Token.eof] using hlast
  obtain ⟨t, ht, rfl⟩ := List.mem_map.mp hline
  obtain ⟨p, hp, hpt⟩ := List.mem_filterMap.mp ht
  rw [Segment.line_of_token? hpt, ← lineAt_end]
  exact lineAt_mono (start_lt_stop hp).2

theorem sorted_errors (source : Text) : ((scan source).errors.map LexicalError.line).Pairwise (· ≤ ·) := by
  rw [errors_eq_spans]
  exact sorted_filterMap fun _ _ he => Segment.line_of_error? he

theorem lineNumbers_scan (source : Text) : LineNumbers source where
  slices := fun _ hp => slice_of_mem_spans hp
  ordered := ordered_spansFrom 0 _
  tokens := tokens_eq_spans source
  ends := fun _ hp _ ht =>
    ⟨(Segment.lexeme_of_token? ht).trans (slice_of_mem_spans hp).symm, Segment.line_of_token? ht⟩
  starts := fun _ hp _ ht hk => line_eq_start hp ht hk
  closings := fun _ hp _ ht hk => line_eq_closing hp ht hk
  errors := errors_eq_places source
  unterminated := fun _ h => unterminated_last h
  tokens_sorted := sorted_tokens source
  errors_sorted := sorted_errors source

end LoxFront
