/-
  LoxFront.Proofs.Seam — segments read in front of a text that is changed.

  A lexeme looks at no more than two characters behind it. So segments that the grammar
  prescribes in front of one text are prescribed in front of another one too, if its first
  character is the same or ends their last segment (`readBefore_of_head`); the second
  character has a say only behind a number without a fraction. The text behind is then read
  as it is by itself (`segments_of_readBefore`), on lines that are all moved by the same
  number (`tokensFrom_shifted`, `errorsFrom_shifted`).
-/

import LoxFront.Proofs.Adjacency
import LoxFront.Proofs.RoundTrip

namespace LoxFront

/-! ## Lines moved on -/

def Token.shifted (k : Nat) (t : Token) : Token := { t with line := t.line + k }

def LexicalError.shifted (k : Nat) : LexicalError → LexicalError
  | .unexpected line c => .unexpected (line + k) c
  | .unterminated line => .unterminated (line + k)

@[simp] theorem Token.shifted_zero (t : Token) : t.shifted 0 = t := rfl

@[simp] theorem Token.form_shifted (k : Nat) (t : Token) : (t.shifted k).form = t.form := rfl

@[simp] theorem LexicalError.shifted_zero (e : LexicalError) : e.shifted 0 = e := by cases e <;> rfl

@[simp] theorem LexicalError.message_shifted (k : Nat) (e : LexicalError) : (e.shifted k).message = e.message := by
  cases e <;> rfl

theorem Segment.token?_shifted (k line : Nat) (s : Segment) :
    s.token? (line + k) = (s.token? line).map (Token.shifted k) := by
  cases s <;> rfl

theorem Segment.error?_shifted (k line : Nat) (s : Segment) :
    s.error? (line + k) = (s.error? line).map (LexicalError.shifted k) := by
  cases s <;> rfl

theorem endLines_shifted (k line : Nat) (segs : List Segment) :
    endLines (line + k) segs = (endLines line segs).map fun p => (p.1, p.2 + k) := by
  induction segs generalizing line with
  | nil => rfl
  | cons s segs ih => rw [endLines, endLines, List.map_cons, Nat.add_right_comm, ih]

theorem tokensFrom_shifted (k line : Nat) (segs : List Segment) :
    tokensFrom (line + k) segs = (tokensFrom line segs).map (Token.shifted k) := by
  rw [tokensFrom, tokensFrom, endLines_shifted, List.filterMap_map, List.map_filterMap]
  simp only [Function.comp_def, Segment.token?_shifted]

theorem errorsFrom_shifted (k line : Nat) (segs : List Segment) :
    errorsFrom (line + k) segs = (errorsFrom line segs).map (LexicalError.shifted k) := by
  rw [errorsFrom, errorsFrom, endLines_shifted, List.filterMap_map, List.map_filterMap]
  simp only [Function.comp_def, Segment.error?_shifted]

/-- The tokens in front of the end of the source. -/
def Scan.inner (s : Scan) : List Token := s.tokens.filter (·.kind ≠ .eof)

theorem inner_scan (source : Text) : (scan source).inner = tokensFrom 1 (segments source) := tokens_before_eof source

/-! ## What a lexeme sees of the text behind it -/

namespace Segment

/-- Nothing closes it, so it is the rest of its source. -/
def isOpen : Segment → Bool
  | .openString _ | .openComment _ => true
  | _ => false

/-- The character ends the segment wherever it stands behind it: a blank ends every
    lexeme, but of the blanks only a line feed ends a line comment. -/
def EndedBy (c : Char) : Segment → Prop
  | .lineComment _ => c = '\n'
  | .openString _ | .openComment _ => False
  | _ => isBlank c

theorem endedBy_lineFeed {s : Segment} (h : ¬ s.isOpen) : s.EndedBy '\n' := by
  cases s
  case openString | openComment => exact absurd rfl h
  all_goals rfl

theorem endedBy_blank {s : Segment} (hopen : ¬ s.isOpen) (hline : ∀ body, s ≠ .lineComment body) {c : Char} (hc : isBlank c) :
    s.EndedBy c := by
  cases s
  case openString | openComment => exact absurd rfl hopen
  case lineComment body => exact absurd rfl (hline body)
  all_goals exact hc

theorem endedBy_of_form? {s : Segment} {f : Form} (hs : s.form? = some f) {c : Char} (hc : isBlank c) : s.EndedBy c := by
  cases s <;> first | exact hc | cases hs

/-- Where a segment stops, it also stops before a text that offers it nothing new. -/
theorem stopsBefore_of_head {s : Segment} {t u : Text} (h : s.StopsBefore t)
    (hhead : ∀ c ∈ u.head?, c ∈ t.head? ∨ s.EndedBy c)
    (hfraction : (∃ whole, s = .number whole []) → StartsFraction u → StartsFraction t) : s.StopsBefore u := by
  cases s with
  | mark m =>
    have hne : ∀ d, ¬ isBlank d → t.head? ≠ some d → u.head? ≠ some d := by
      intro d hd ht hu
      rcases hhead d hu with hsame | hblank
      · exact ht hsame
      · exact hd hblank
    cases m
    case bang | equal | less | greater => exact hne '=' (by decide) h
    case slash => exact ⟨hne '/' (by decide) h.1, hne '*' (by decide) h.2⟩
    all_goals trivial
  | word t =>
    intro c hc
    rcases hhead c hc with hsame | hblank
    · exact h c hsame
    · exact not_isWordPart_of_isBlank hblank
  | number whole fraction =>
    have hdigit : (∀ c ∈ t.head?, ¬ c.isDigit) → ∀ c ∈ u.head?, ¬ c.isDigit := by
      intro ht c hc hd
      rcases hhead c hc with hsame | hblank
      · exact ht c hsame hd
      · exact not_isWordPart_of_isBlank hblank (isWordPart_of_isDigit hd)
    cases fraction with
    | nil => exact ⟨hdigit h.1, fun hu => h.2 (hfraction ⟨whole, rfl⟩ hu)⟩
    | cons d fraction => exact hdigit h
  | openString body | openComment body =>
    obtain rfl : t = [] := h
    cases u with
    | nil => rfl
    | cons c u =>
      rcases hhead c rfl with hsame | hended
      · cases hsame
      · exact hended.elim
  | lineComment body =>
    intro c hc
    rcases hhead c hc with hsame | hbreak
    · exact h c hsame
    · exact hbreak
  | string _ | blockComment _ | blank _ | unexpected _ => trivial

end Segment

theorem not_startsFraction {c : Char} (h : c ≠ '.') (t : Text) : ¬ Segment.StartsFraction (c :: t) := by
  rintro ⟨d, u, heq, -⟩
  exact h (List.cons.inj heq).1

/-! ## Segments in front of a text -/

theorem isDigit_of_head {whole fraction : Text} (hs : (Segment.number whole fraction).Shaped) {c : Char}
    (hc : c ∈ (Segment.number whole fraction).text.head?) : c.isDigit := by
  obtain ⟨hne, hw, -⟩ := hs
  obtain ⟨d, ds, rfl⟩ := List.exists_cons_of_ne_nil hne
  obtain rfl : d = c := by cases fraction <;> simpa [Segment.text, Decimal.positional] using hc
  exact hw d List.mem_cons_self

/-- No other lexeme begins with a point: a fraction needs a digit in front. -/
theorem eq_point_of_head {s : Segment} (hs : s.Shaped) (h : s.text.head? = some '.') : s = .mark .dot := by
  cases s with
  | mark m => cases m <;> first | rfl | cases h
  | word t =>
    obtain ⟨c, u, rfl, hc, -⟩ := hs
    cases h
    exact absurd hc (by decide)
  | number whole fraction => exact absurd (isDigit_of_head hs h) (by decide)
  | blank c =>
    cases h
    exact absurd (show isBlank '.' from hs) (by decide)
  | unexpected c =>
    cases h
    exact absurd rfl (hs.2.2.2.2 .dot)
  | string _ | openString _ | lineComment _ | blockComment _ | openComment _ => cases h

/-- The grammar prescribes each segment in front of what the later ones and `rest` make up. -/
def ReadBefore (rest : Text) : List Segment → Prop
  | [] => True
  | s :: segs => s.Prescribed (segs.flatMap Segment.text ++ rest) ∧ ReadBefore rest segs

theorem readBefore_append {rest : Text} {xs ys : List Segment} :
    ReadBefore rest (xs ++ ys) ↔ ReadBefore (ys.flatMap Segment.text ++ rest) xs ∧ ReadBefore rest ys := by
  induction xs with
  | nil => simp [ReadBefore]
  | cons s xs ih => simp [ReadBefore, ih, and_assoc]

theorem shaped_of_readBefore {rest : Text} {segs : List Segment} (h : ReadBefore rest segs) : ∀ s ∈ segs, s.Shaped := by
  induction segs with
  | nil => simp
  | cons s segs ih => exact List.forall_mem_cons.mpr ⟨h.1.1, ih h.2⟩

theorem readBefore_segments (source : Text) : ReadBefore [] (segments source) := by
  fun_induction segments source with
  | case1 => trivial
  | case2 c rest ih =>
    refine ⟨?_, ih⟩
    rw [flatten_segments, List.append_nil]
    exact Segment.next_prescribed c rest

theorem segments_of_readBefore {rest : Text} {segs : List Segment} (h : ReadBefore rest segs) :
    segments (segs.flatMap Segment.text ++ rest) = segs ++ segments rest := by
  induction segs with
  | nil => rfl
  | cons s segs ih =>
    obtain ⟨hs, hrest⟩ := h
    rw [List.flatMap_cons, List.append_assoc, Segment.segments_of_prescribed hs, ih hrest, List.cons_append]

theorem segments_append {a rest : Text} (h : ReadBefore rest (segments a)) :
    segments (a ++ rest) = segments a ++ segments rest := by
  have hsegs := segments_of_readBefore h
  rwa [flatten_segments] at hsegs

/-- Nothing but the last segment of a source is open. -/
theorem not_isOpen_of_readBefore {rest : Text} {segs : List Segment} (h : ReadBefore rest segs) (hne : rest ≠ []) :
    ∀ s ∈ segs, ¬ s.isOpen := by
  induction segs with
  | nil => simp
  | cons s segs ih =>
    obtain ⟨hs, hsegs⟩ := h
    refine List.forall_mem_cons.mpr ⟨?_, ih hsegs⟩
    intro hopen
    have hrest : segs.flatMap Segment.text ++ rest = [] := by
      cases s
      case openString | openComment => exact hs.2
      all_goals cases hopen
    exact hne (List.append_eq_nil_iff.mp hrest).2

/-- The last segment of a source, and those that are read in front of it. -/
theorem exists_last {source : Text} (h : source ≠ []) :
    ∃ segs s, segments source = segs ++ [s] ∧ source = segs.flatMap Segment.text ++ s.text ∧ s.Shaped ∧
      ReadBefore s.text segs := by
  have hflat := flatten_segments source
  have hne : segments source ≠ [] := by
    intro hnil
    rw [hnil] at hflat
    exact h hflat.symm
  obtain ⟨segs, s, hsegs⟩ : ∃ segs s, segments source = segs ++ [s] :=
    ⟨_, _, (List.dropLast_concat_getLast hne).symm⟩
  have hread := readBefore_segments source
  rw [hsegs, readBefore_append] at hread
  refine ⟨segs, s, hsegs, ?_, hread.2.1.1, ?_⟩
  · rw [← hflat, hsegs, List.flatMap_append, List.flatMap_singleton]
  · simpa using hread.1

/-- Behind one character at least, a text has a say only through a digit in front. -/
theorem startsFraction_of_digit {d : Char} {v t u : Text}
    (hdigit : (∃ c ∈ u.head?, c.isDigit) → ∃ c ∈ t.head?, c.isDigit)
    (h : Segment.StartsFraction (d :: v ++ u)) : Segment.StartsFraction (d :: v ++ t) := by
  obtain rfl : d = '.' := by
    obtain ⟨e, w, heq, -⟩ := h
    exact (List.cons.inj heq).1
  rw [List.cons_append, startsFraction_point] at h ⊢
  cases v with
  | nil => exact hdigit h
  | cons c v => exact h

/-- Of segments read in front of `t`, only the last may not stop in front of `u`, unless a
    digit comes up behind a point. -/
theorem readBefore_of_last {t u : Text} {segs : List Segment} (h : ReadBefore t segs)
    (hlast : ∀ s ∈ segs.getLast?, s.StopsBefore t → s.StopsBefore u)
    (hdigit : (∃ c ∈ u.head?, c.isDigit) → ∃ c ∈ t.head?, c.isDigit) : ReadBefore u segs := by
  induction segs with
  | nil => trivial
  | cons s segs ih =>
    obtain ⟨hs, hsegs⟩ := h
    cases segs with
    | nil => exact ⟨⟨hs.1, hlast s rfl hs.2⟩, trivial⟩
    | cons x segs =>
      rw [List.getLast?_cons_cons] at hlast
      obtain ⟨d, v, htext⟩ : ∃ d v, (x :: segs).flatMap Segment.text = d :: v := by
        obtain ⟨d, v, hx⟩ := List.exists_cons_of_ne_nil hsegs.1.1.text_ne_nil
        exact ⟨d, v ++ segs.flatMap Segment.text, by rw [List.flatMap_cons, hx, List.cons_append]⟩
      rw [htext] at hs
      refine ⟨⟨hs.1, ?_⟩, ih hsegs hlast⟩
      rw [htext]
      exact Segment.stopsBefore_of_head hs.2 (fun c hc => .inl hc) fun _ => startsFraction_of_digit hdigit

/-- Segments read in front of `t` are read in front of `u` if its first character is that
    of `t` or ends the last of them, and if no number without a fraction gets one. -/
theorem readBefore_of_head {t u : Text} {segs : List Segment} (h : ReadBefore t segs)
    (hhead : ∀ c ∈ u.head?, c ∈ t.head? ∨ (isBlank c ∧ ∀ s ∈ segs.getLast?, s.EndedBy c))
    (hfraction : (∃ whole, segs.getLast? = some (.number whole [])) → Segment.StartsFraction u → Segment.StartsFraction t) :
    ReadBefore u segs := by
  refine readBefore_of_last h ?_ ?_
  · intro s hs hstops
    refine Segment.stopsBefore_of_head hstops (fun c hc => (hhead c hc).imp_right fun hended => hended.2 s hs) ?_
    rintro ⟨whole, rfl⟩
    exact hfraction ⟨whole, hs⟩
  · -- A digit is no blank, so where `u` has one in front, `t` has it too.
    rintro ⟨c, hc, hd⟩
    refine ⟨c, (hhead c hc).resolve_right fun hended => ?_, hd⟩
    exact not_isWordPart_of_isBlank hended.1 (isWordPart_of_isDigit hd)

theorem segments_blank {c : Char} (h : isBlank c) (rest : Text) : segments (c :: rest) = .blank c :: segments rest :=
  Segment.segments_of_prescribed (s := .blank c) ⟨h, trivial⟩

/-- A blank cuts off what is behind it. -/
theorem readBefore_blank {t : Text} {segs : List Segment} (h : ReadBefore t segs) {c : Char} (hc : isBlank c)
    (hlast : ∀ s ∈ segs.getLast?, s.EndedBy c) (u : Text) : ReadBefore (c :: u) segs := by
  refine readBefore_of_head h ?_ fun _ hfraction => absurd hfraction (not_startsFraction ?_ u)
  · intro d hd
    obtain rfl : c = d := Option.some.inj hd
    exact .inr ⟨hc, hlast⟩
  · rintro rfl
    exact absurd hc (by decide)

/-- What is read in front of a text stays when more is put behind it, but for a number in
    front of a point. -/
theorem readBefore_appended {t : Text} {segs : List Segment} (hne : t ≠ []) (h : ReadBefore t segs)
    (hpoint : t.head? = some '.' → ¬ ∃ whole, segs.getLast? = some (.number whole [])) (b : Text) :
    ReadBefore (t ++ b) segs := by
  obtain ⟨c, u, rfl⟩ := List.exists_cons_of_ne_nil hne
  refine readBefore_of_head h (fun d hd => .inl hd) ?_
  intro hnumber hfraction
  by_cases hc : c = '.'
  · exact absurd hnumber (hpoint (congrArg some hc))
  · exact absurd hfraction (not_startsFraction hc (u ++ b))

end LoxFront
