/-
  LoxFront.Proofs.Grammar — the lexical grammar, stated without a reader.

  What a segment's own text has to be (`Shaped`) and what may stand behind it
  (`StopsBefore`) are two separate conditions; the grammar prescribes a segment in front of
  a text where both hold (`Prescribed`). A reading of a source (`Lexes`) cuts it into
  segments each of which the grammar prescribes in front of what the others leave.

  `next` gives a prescribed segment (`next_prescribed`), and the only one
  (`segments_of_prescribed`). So every source has exactly one reading (`lexes_iff`), and a
  scan returns the tokens and the errors of that one.
-/

import LoxFront.Scan

namespace LoxFront

namespace Segment

/-! ## Where a block comment ends -/

theorem closes_cons {c : Char} {t : Text} :
    ['*', '/'] <:+: c :: t ↔ (c = '*' ∧ t.head? = some '/') ∨ ['*', '/'] <:+: t := by
  have hhead : ['/'] <+: t ↔ t.head? = some '/' := by
    cases t with
    | nil => simp
    | cons d t => simp [List.cons_prefix_cons, eq_comm]
  rw [List.infix_cons_iff, List.cons_prefix_cons, hhead, eq_comm]

theorem closeComment?_eq_none_iff {t : Text} : closeComment? t = none ↔ ¬ ['*', '/'] <:+: t := by
  induction t with
  | nil => simp [closeComment?]
  | cons c t ih =>
    by_cases hclose : c = '*' ∧ t.head? = some '/'
    · obtain ⟨rfl, ht⟩ := hclose
      obtain ⟨u, rfl⟩ := List.head?_eq_some_iff.mp ht
      simp [closeComment?, closes_cons]
    · rw [closeComment?_cons hclose, Option.map_eq_none_iff, ih, closes_cons]
      simp [hclose]

theorem not_closes_of_closeComment? {t body after : Text} (h : closeComment? t = some (body, after)) :
    ¬ ['*', '/'] <:+: body ++ ['*'] := by
  induction t generalizing body with
  | nil => cases h
  | cons c t ih =>
    by_cases hclose : c = '*' ∧ t.head? = some '/'
    · obtain ⟨rfl, ht⟩ := hclose
      obtain ⟨u, rfl⟩ := List.head?_eq_some_iff.mp ht
      cases h
      simp [closes_cons]
    · rw [closeComment?_cons hclose] at h
      obtain ⟨⟨body, after⟩, hbody, heq⟩ := Option.map_eq_some_iff.mp h
      cases heq
      rw [List.cons_append, closes_cons]
      rintro (⟨rfl, hslash⟩ | hlater)
      · refine hclose ⟨rfl, ?_⟩
        rw [← closeComment?_text hbody]
        cases body with
        | nil => simp at hslash
        | cons b body => simpa using hslash
      · exact ih hbody hlater

theorem closeComment?_of_not_closes {body : Text} (h : ¬ ['*', '/'] <:+: body ++ ['*']) (after : Text) :
    closeComment? (body ++ '*' :: '/' :: after) = some (body, after) := by
  induction body with
  | nil => rfl
  | cons b body ih =>
    rw [List.cons_append, closes_cons, not_or] at h
    have hfirst : ¬ (b = '*' ∧ (body ++ '*' :: '/' :: after).head? = some '/') := by
      rintro ⟨rfl, hslash⟩
      cases body with
      | nil => simp at hslash
      | cons b body => exact h.1 ⟨rfl, by simpa using hslash⟩
    rw [List.cons_append, closeComment?_cons hfirst, ih h.2]
    rfl

/-! ## What the grammar prescribes -/

/-- What the segment's own text has to be. A comment's body does not hold its end, nor
    does a string's. -/
def Shaped : Segment → Prop
  | .mark _ => True
  | .word t => ∃ c u, t = c :: u ∧ isWordStart c ∧ ∀ d ∈ u, isWordPart d
  | .number whole fraction => whole ≠ [] ∧ (∀ c ∈ whole, c.isDigit) ∧ ∀ c ∈ fraction, c.isDigit
  | .string body | .openString body => '"' ∉ body
  | .lineComment body => '\n' ∉ body
  | .blockComment body => ¬ ['*', '/'] <:+: body ++ ['*']
  | .openComment body => ¬ ['*', '/'] <:+: body
  | .blank c => isBlank c
  | .unexpected c => Unexpected c

/-- What may stand behind the segment: nothing that would make it longer or another one. -/
def StopsBefore (rest : Text) : Segment → Prop
  | .mark .bang | .mark .equal | .mark .less | .mark .greater => rest.head? ≠ some '='
  | .mark .slash => rest.head? ≠ some '/' ∧ rest.head? ≠ some '*'
  | .word _ => ∀ c ∈ rest.head?, ¬ isWordPart c
  | .number _ [] => (∀ c ∈ rest.head?, ¬ c.isDigit) ∧ ¬ StartsFraction rest
  | .number _ (_ :: _) => ∀ c ∈ rest.head?, ¬ c.isDigit
  | .openString _ | .openComment _ => rest = []
  | .lineComment _ => ∀ c ∈ rest.head?, c = '\n'
  | _ => True

/-- The grammar prescribes the segment in front of `rest`. -/
def Prescribed (s : Segment) (rest : Text) : Prop := s.Shaped ∧ s.StopsBefore rest

theorem Shaped.text_ne_nil {s : Segment} (h : s.Shaped) : s.text ≠ [] := by
  cases s with
  | mark m => exact m.spelling_ne_nil
  | word t =>
    obtain ⟨c, u, rfl, -, -⟩ := h
    exact List.cons_ne_nil c u
  | number whole fraction =>
    obtain ⟨hne, -, -⟩ := h
    cases fraction <;> simp [text, Decimal.positional, hne]
  | _ => simp [text]

/-! ## `next` gives a prescribed segment -/

theorem nextNumber_prescribed {whole rest : Text} (hne : whole ≠ []) (hw : ∀ c ∈ whole, c.isDigit)
    (hrest : ∀ c ∈ rest.head?, ¬ c.isDigit) :
    (nextNumber whole rest).1.Prescribed (nextNumber whole rest).2 := by
  by_cases hf : StartsFraction rest
  · obtain ⟨d, u, rfl, hd⟩ := hf
    rw [nextNumber, if_pos hd]
    refine ⟨⟨hne, hw, ?_⟩, fun c hc => not_of_head_dropWhile hc⟩
    intro c hc
    rcases List.mem_cons.mp hc with rfl | hc
    · exact hd
    · exact mem_takeWhile hc
  · rw [nextNumber_of_not hf]
    exact ⟨⟨hne, hw, by simp⟩, hrest, hf⟩

theorem nextString_prescribed (rest : Text) : (nextString rest).1.Prescribed (nextString rest).2 := by
  have hbody : '"' ∉ rest.takeWhile (· ≠ '"') := fun h => by simpa using mem_takeWhile h
  unfold nextString
  split
  · next h =>
    have hall := List.takeWhile_append_dropWhile (p := (· ≠ '"')) (l := rest)
    rw [h, List.append_nil] at hall
    exact ⟨by rw [hall] at hbody; exact hbody, rfl⟩
  · exact ⟨hbody, trivial⟩

theorem nextSlash_prescribed (rest : Text) : (nextSlash rest).1.Prescribed (nextSlash rest).2 := by
  by_cases hline : rest.head? = some '/'
  · obtain ⟨u, rfl⟩ := List.head?_eq_some_iff.mp hline
    refine ⟨fun h => by simpa using mem_takeWhile h, ?_⟩
    intro c hc
    simpa using not_of_head_dropWhile hc
  by_cases hblock : rest.head? = some '*'
  · obtain ⟨u, rfl⟩ := List.head?_eq_some_iff.mp hblock
    cases h : closeComment? u with
    | none =>
      simp only [nextSlash, h]
      exact ⟨closeComment?_eq_none_iff.mp h, rfl⟩
    | some p =>
      simp only [nextSlash, h]
      exact ⟨not_closes_of_closeComment? h, trivial⟩
  · rw [nextSlash_of_ne hline hblock]
    exact ⟨trivial, hline, hblock⟩

theorem nextMark_prescribed {m : Mark} {rest : Text} (hslash : m ≠ .slash) :
    (nextMark m rest).1.Prescribed (nextMark m rest).2 := by
  by_cases he : rest.head? = some '='
  · obtain ⟨u, rfl⟩ := List.head?_eq_some_iff.mp he
    cases m
    case slash => exact absurd rfl hslash
    all_goals exact ⟨trivial, trivial⟩
  · rw [nextMark_of_ne he]
    cases m
    case slash => exact absurd rfl hslash
    case bang | equal | less | greater => exact ⟨trivial, he⟩
    all_goals exact ⟨trivial, trivial⟩

theorem first_cases (c : Char) :
    isBlank c ∨ isWordStart c ∨ c.isDigit ∨ c = '"' ∨ (∃ m : Mark, m.spelling = [c]) ∨ Unexpected c := by
  by_cases hmark : ∃ m : Mark, m.spelling = [c]
  · exact .inr (.inr (.inr (.inr (.inl hmark))))
  · have hnone : ∀ m : Mark, m.spelling ≠ [c] := fun m hm => hmark ⟨m, hm⟩
    unfold Unexpected
    grind

theorem next_prescribed (c : Char) (rest : Text) : (next c rest).1.Prescribed (next c rest).2 := by
  rcases first_cases c with hblank | hword | hdigit | rfl | ⟨m, hm⟩ | hother
  · rw [next_of_isBlank hblank]
    exact ⟨hblank, trivial⟩
  · rw [next_of_isWordStart hword]
    exact ⟨⟨c, _, rfl, hword, fun d hd => mem_takeWhile hd⟩, fun d hd => not_of_head_dropWhile hd⟩
  · rw [next_of_isDigit hdigit]
    refine nextNumber_prescribed (List.cons_ne_nil _ _) ?_ fun d hd => not_of_head_dropWhile hd
    intro d hd
    rcases List.mem_cons.mp hd with rfl | hd
    · exact hdigit
    · exact mem_takeWhile hd
  · exact nextString_prescribed rest
  · by_cases hslash : m = .slash
    · subst hslash
      cases hm
      exact nextSlash_prescribed rest
    · rw [next_of_mark hm hslash]
      exact nextMark_prescribed hslash
  · rw [next_of_unexpected hother]
    exact ⟨hother, trivial⟩

/-! ## No other segment is prescribed -/

theorem segments_of_next {s : Segment} {c : Char} {t rest : Text} (htext : s.text ++ rest = c :: t)
    (hnext : next c t = (s, rest)) : segments (s.text ++ rest) = s :: segments rest := by
  rw [htext, segments, hnext]

theorem segments_of_alone {m : Mark} {c : Char} {rest : Text} (hm : m.spelling = [c]) (hslash : m ≠ .slash)
    (h : m.withEqual? = none ∨ rest.head? ≠ some '=') : segments (m.spelling ++ rest) = .mark m :: segments rest := by
  refine segments_of_next (s := .mark m) (c := c) (t := rest) (by simp [text, hm]) ?_
  rw [next_of_mark hm hslash]
  rcases h with hnone | hne
  · exact nextMark_of_none hnone rest
  · exact nextMark_of_ne hne

theorem segments_of_doubled {m n : Mark} {c : Char} (hm : m.spelling = [c]) (hn : m.withEqual? = some n) (rest : Text) :
    segments (n.spelling ++ rest) = .mark n :: segments rest := by
  have hslash : m ≠ .slash := by
    rintro rfl
    cases hn
  refine segments_of_next (s := .mark n) (c := c) (t := '=' :: rest)
    (by simp [text, Mark.spelling_of_withEqual? hn, hm]) ?_
  simp only [next_of_mark hm hslash, nextMark, hn]

theorem segments_of_mark {m : Mark} {rest : Text} (h : StopsBefore rest (.mark m)) :
    segments (m.spelling ++ rest) = .mark m :: segments rest := by
  cases m
  case slash => exact segments_of_next (s := .mark .slash) rfl (nextSlash_of_ne h.1 h.2)
  case bang | equal | less | greater => exact segments_of_alone rfl (by decide) (.inr h)
  case bangEqual => exact segments_of_doubled (m := .bang) rfl rfl rest
  case equalEqual => exact segments_of_doubled (m := .equal) rfl rfl rest
  case lessEqual => exact segments_of_doubled (m := .less) rfl rfl rest
  case greaterEqual => exact segments_of_doubled (m := .greater) rfl rfl rest
  all_goals exact segments_of_alone rfl (by decide) (.inl rfl)

theorem nextNumber_of_prescribed {whole fraction rest : Text} (h : Prescribed (.number whole fraction) rest) :
    ∃ tail, Decimal.positional whole fraction = whole ++ tail ∧ (∀ c ∈ (tail ++ rest).head?, ¬ c.isDigit) ∧
      nextNumber whole (tail ++ rest) = (.number whole fraction, rest) := by
  obtain ⟨⟨-, -, hf⟩, hrest⟩ := h
  cases fraction with
  | nil => exact ⟨[], by simp [Decimal.positional], hrest.1, nextNumber_of_not hrest.2 whole⟩
  | cons d fraction =>
    have hd : d.isDigit := hf d List.mem_cons_self
    have hrun : ∀ c ∈ fraction, c.isDigit := fun c hc => hf c (List.mem_cons_of_mem d hc)
    refine ⟨'.' :: d :: fraction, rfl, by simp, ?_⟩
    simp [nextNumber, hd, takeWhile_run hrun hrest, dropWhile_run hrun hrest]

/-- A segment that the grammar prescribes is the one that is read. -/
theorem segments_of_prescribed {s : Segment} {rest : Text} (h : s.Prescribed rest) :
    segments (s.text ++ rest) = s :: segments rest := by
  obtain ⟨hs, hrest⟩ := h
  cases s with
  | mark m => exact segments_of_mark hrest
  | word t =>
    obtain ⟨c, u, rfl, hc, hu⟩ := hs
    refine segments_of_next (c := c) (t := u ++ rest) rfl ?_
    rw [next_of_isWordStart hc, takeWhile_run hu hrest, dropWhile_run hu hrest]
  | number whole fraction =>
    obtain ⟨tail, htext, hstop, hnext⟩ := nextNumber_of_prescribed ⟨hs, hrest⟩
    obtain ⟨hne, hw, -⟩ := hs
    obtain ⟨d, ds, rfl⟩ := List.exists_cons_of_ne_nil hne
    have hrun : ∀ c ∈ ds, c.isDigit := fun c hc => hw c (List.mem_cons_of_mem d hc)
    refine segments_of_next (c := d) (t := ds ++ (tail ++ rest)) (by simp [text, htext]) ?_
    rw [next_of_isDigit (hw d List.mem_cons_self), takeWhile_run hrun hstop, dropWhile_run hrun hstop, hnext]
  | string body =>
    refine segments_of_next (c := '"') (t := body ++ '"' :: rest) (by simp [text]) ?_
    have hstop : ∀ c ∈ ('"' :: rest).head?, c = '"' := by simp
    simp only [next_quote, nextString, takeWhile_ne_run hs hstop, dropWhile_ne_run hs hstop]
  | openString body =>
    obtain rfl : rest = [] := hrest
    refine segments_of_next (c := '"') (t := body) (by simp [text]) ?_
    have hdrop := dropWhile_ne_run hs (r := []) (by simp)
    rw [List.append_nil] at hdrop
    simp only [next_quote, nextString, hdrop]
  | lineComment body =>
    refine segments_of_next (c := '/') (t := '/' :: (body ++ rest)) rfl ?_
    simp only [next_slash, nextSlash, takeWhile_ne_run hs hrest, dropWhile_ne_run hs hrest]
  | blockComment body =>
    refine segments_of_next (c := '/') (t := '*' :: (body ++ '*' :: '/' :: rest)) (by simp [text]) ?_
    simp only [next_slash, nextSlash, closeComment?_of_not_closes hs]
  | openComment body =>
    obtain rfl : rest = [] := hrest
    refine segments_of_next (c := '/') (t := '*' :: body) (by simp [text]) ?_
    simp only [next_slash, nextSlash, closeComment?_eq_none_iff.mpr hs]
  | blank c => exact segments_of_next (c := c) (t := rest) rfl (next_of_isBlank hs rest)
  | unexpected c => exact segments_of_next (c := c) (t := rest) rfl (next_of_unexpected hs rest)

end Segment

/-! ## The one reading of a source -/

/-- The segments cut the source, none is empty, and the grammar prescribes each in front
    of the text that the later ones make up. -/
structure Lexes (source : Text) (segs : List Segment) : Prop where
  text_eq : segs.flatMap Segment.text = source
  text_ne_nil : ∀ s ∈ segs, s.text ≠ []
  prescribed : ∀ before s after, segs = before ++ s :: after → s.Prescribed (after.flatMap Segment.text)

theorem lexes_nil : Lexes [] [] := by
  refine ⟨rfl, by simp, ?_⟩
  intro before s after h
  simp at h

theorem lexes_cons_iff {source : Text} {s : Segment} {segs : List Segment} :
    Lexes source (s :: segs) ↔ ∃ rest, source = s.text ++ rest ∧ s.Prescribed rest ∧ Lexes rest segs := by
  constructor
  · rintro ⟨htext, hne, hprescribed⟩
    refine ⟨segs.flatMap Segment.text, by simp [← htext], hprescribed [] s segs rfl, rfl, ?_, ?_⟩
    · exact fun t ht => hne t (List.mem_cons_of_mem s ht)
    · intro before t after h
      exact hprescribed (s :: before) t after (by simp [h])
  · rintro ⟨rest, rfl, hs, htext, hne, hprescribed⟩
    refine ⟨by simp [htext], ?_, ?_⟩
    · intro t ht
      rcases List.mem_cons.mp ht with rfl | ht
      · exact hs.1.text_ne_nil
      · exact hne t ht
    · intro before t after h
      cases before with
      | nil =>
        cases h
        rw [htext]
        exact hs
      | cons b before =>
        rw [List.cons_append, List.cons.injEq] at h
        exact hprescribed before t after h.2

theorem lexes_segments (source : Text) : Lexes source (segments source) := by
  fun_induction segments source with
  | case1 => exact lexes_nil
  | case2 c rest ih =>
    exact lexes_cons_iff.mpr ⟨_, (Segment.next_text c rest).symm, Segment.next_prescribed c rest, ih⟩

theorem eq_segments_of_lexes {source : Text} {segs : List Segment} (h : Lexes source segs) : segs = segments source := by
  induction segs generalizing source with
  | nil =>
    obtain rfl : [] = source := h.text_eq
    simp [segments]
  | cons s segs ih =>
    obtain ⟨rest, rfl, hs, hrest⟩ := lexes_cons_iff.mp h
    rw [Segment.segments_of_prescribed hs, ih hrest]

theorem lexes_iff {source : Text} {segs : List Segment} : Lexes source segs ↔ segs = segments source :=
  ⟨eq_segments_of_lexes, fun h => h ▸ lexes_segments source⟩

theorem shaped_of_mem_segments {source : Text} {s : Segment} (h : s ∈ segments source) : s.Shaped := by
  obtain ⟨before, after, hsplit⟩ := List.append_of_mem h
  exact ((lexes_segments source).prescribed before s after hsplit).1

/-- Every source has exactly one reading by the grammar. A scan returns the tokens of its
    segments, in their order and each with the line its segment ends on, then the end of
    the source; and it reports the errors of its segments in the same way. -/
theorem scan_of_only_reading (source : Text) :
    ∃ segs, (∀ others, Lexes source others ↔ others = segs) ∧
      (scan source).tokens = tokensFrom 1 segs ++ [.eof (1 + source.lineBreaks)] ∧
      (scan source).errors = errorsFrom 1 segs := by
  refine ⟨segments source, fun others => lexes_iff, ?_, ?_⟩
  · rw [scan_eq]
  · rw [scan_eq]

end LoxFront
