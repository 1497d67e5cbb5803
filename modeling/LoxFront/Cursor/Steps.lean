/-
  LoxFront.Cursor.Steps — what each move of a cursor does, said of the text in front of it.

  `rest` is the text that is still to read. Every loop and every lexeme is given by one
  equation in it: a step reads the segment that starts there, no more and no less, and the
  line grows by the line feeds in it (`step_eq`).
-/

import LoxFront.Cursor

namespace LoxFront

namespace Cursor

def rest (c : Cursor) : Text := c.source.toList.drop c.current

/-- Behind `t`, with its line feeds counted. -/
def past (t : Text) (c : Cursor) : Cursor :=
  { c with current := c.current + t.length, line := c.line + t.lineBreaks }

/-! ## Moving and looking -/

@[simp] theorem rest_past (t : Text) (c : Cursor) : (c.past t).rest = c.rest.drop t.length := by
  simp [rest, past]

@[simp] theorem rest_counted (d : Char) (c : Cursor) : (c.counted d).rest = c.rest := by
  unfold counted
  split <;> rfl

@[simp] theorem line_ofText (t : Text) : (ofText t).line = 1 := rfl

@[simp] theorem rest_ofText (t : Text) : (ofText t).rest = t := by simp [rest, ofText]

@[simp] theorem line_past (t : Text) (c : Cursor) : (c.past t).line = c.line + t.lineBreaks := rfl

theorem rest_past_of_append {c : Cursor} {t u : Text} (h : c.rest = t ++ u) : (c.past t).rest = u := by
  simp [h]

@[simp] theorem past_nil (c : Cursor) : c.past [] = c := by simp [past, Text.lineBreaks]

theorem past_append (t u : Text) (c : Cursor) : c.past (t ++ u) = (c.past t).past u := by
  simp [past, Text.lineBreaks_append, Nat.add_assoc]

theorem past_of_no_break {t : Text} (h : '\n' ∉ t) (c : Cursor) : c.past t = c.moved t.length := by
  simp [past, moved, Text.lineBreaks, List.count_eq_zero.mpr h]

theorem moved_one {d : Char} (h : d ≠ '\n') (c : Cursor) : c.moved 1 = c.past [d] :=
  (past_of_no_break (t := [d]) (by simpa using h.symm) c).symm

theorem past_single (d : Char) (c : Cursor) : c.past [d] = (c.counted d).moved 1 := by
  unfold counted
  by_cases h : d = '\n'
  · simp [past, moved, nextLine, Text.lineBreaks, h]
  · simp [past, moved, Text.lineBreaks, h]

theorem counted_moved (d : Char) (n : Nat) (c : Cursor) : (c.moved n).counted d = (c.counted d).moved n := by
  unfold counted
  split <;> rfl

theorem getElem?_source (c : Cursor) (n : Nat) : c.source[c.current + n]? = c.rest[n]? := by
  simp [rest]

theorem atEnd_iff (c : Cursor) : c.atEnd = true ↔ c.rest = [] := by
  simp [atEnd, rest]

theorem atEnd_of_nil {c : Cursor} (h : c.rest = []) : c.atEnd = true := (atEnd_iff c).mpr h

theorem atEnd_of_cons {c : Cursor} {d : Char} {t : Text} (h : c.rest = d :: t) : c.atEnd = false := by
  rw [Bool.eq_false_iff, ne_eq, atEnd_iff, h]
  exact List.cons_ne_nil d t

theorem peek_eq (c : Cursor) : c.peek = c.rest.head?.getD '\x00' := by
  rw [peek, ← Nat.add_zero c.current, getElem?_source, List.head?_eq_getElem?]

theorem peekNext_eq (c : Cursor) : c.peekNext = c.rest[1]?.getD '\x00' := by
  rw [peekNext, getElem?_source]

theorem advance_nil {c : Cursor} (h : c.rest = []) : c.advance = none := by
  have hnone := getElem?_source c 0
  simp [h] at hnone
  simp [advance, hnone]

theorem advance_cons {c : Cursor} {d : Char} {t : Text} (h : c.rest = d :: t) : c.advance = some (d, c.moved 1) := by
  have hd := getElem?_source c 0
  simp [h] at hd
  simp [advance, hd]

theorem accept_eq (expected : Char) (c : Cursor) :
    c.accept expected = some (if c.rest.head? = some expected then (true, c.moved 1) else (false, c)) := by
  unfold accept
  cases h : c.rest with
  | nil => simp [atEnd_of_nil h]
  | cons d t =>
    have hd := getElem?_source c 0
    simp [h] at hd
    simp [atEnd_of_cons h, hd]

/-! ## Loops -/

theorem skipWhile_unfold (p : Char → Bool) (c : Cursor) :
    c.skipWhile p = if p c.peek then c.advance.bind (·.2.skipWhile p) else some c := by
  rw [skipWhile]
  split
  · split <;> simp [*]
  · rfl

theorem skipLineComment_unfold (c : Cursor) :
    c.skipLineComment = if c.peek ≠ '\n' ∧ !c.atEnd then c.advance.bind (·.2.skipLineComment) else some c := by
  rw [skipLineComment]
  split
  · split <;> simp [*]
  · rfl

theorem skipBlockComment_unfold (c : Cursor) :
    c.skipBlockComment =
      if c.atEnd then some c
      else if c.peek = '*' ∧ c.peekNext = '/' then some (c.moved 2)
      else c.advance.bind fun a => (a.2.counted a.1).skipBlockComment := by
  rw [skipBlockComment]
  split
  · rfl
  split
  · rfl
  · split <;> simp [*]

theorem skipString_unfold (c : Cursor) :
    c.skipString = if c.peek ≠ '"' ∧ !c.atEnd then (c.counted c.peek).advance.bind (·.2.skipString) else some c := by
  rw [skipString]
  split
  · split <;> simp [*]
  · rfl

theorem skipWhile_eq {p : Char → Bool} (hnul : p '\x00' = false) (hbreak : p '\n' = false) (c : Cursor) :
    c.skipWhile p = some (c.past (c.rest.takeWhile p)) := by
  induction h : c.rest generalizing c with
  | nil =>
    rw [skipWhile_unfold]
    simp [peek_eq, h, hnul]
  | cons d t ih =>
    rw [skipWhile_unfold]
    cases hd : p d with
    | false => simp [peek_eq, h, hd]
    | true =>
      have hne : d ≠ '\n' := by
        rintro rfl
        simp [hbreak] at hd
      simp only [peek_eq, h, List.head?_cons, Option.getD_some, hd, if_true, advance_cons h, Option.bind_some,
        moved_one hne]
      rw [ih (c.past [d]) (by simp [h])]
      simp [← past_append, hd]

theorem skipLineComment_eq (c : Cursor) : c.skipLineComment = some (c.past (c.rest.takeWhile (· ≠ '\n'))) := by
  induction h : c.rest generalizing c with
  | nil =>
    rw [skipLineComment_unfold]
    simp [atEnd_of_nil h]
  | cons d t ih =>
    rw [skipLineComment_unfold]
    by_cases hd : d = '\n'
    · simp [peek_eq, h, hd]
    · simp only [peek_eq, h, List.head?_cons, Option.getD_some, ne_eq, hd, not_false_eq_true, atEnd_of_cons h, Bool.not_false,
        and_self, if_true, advance_cons h, Option.bind_some, moved_one hd]
      rw [ih (c.past [d]) (by simp [h])]
      simp [← past_append, hd]

theorem skipString_eq (c : Cursor) : c.skipString = some (c.past (c.rest.takeWhile (· ≠ '"'))) := by
  induction h : c.rest generalizing c with
  | nil =>
    rw [skipString_unfold]
    simp [atEnd_of_nil h]
  | cons d t ih =>
    rw [skipString_unfold]
    by_cases hd : d = '"'
    · simp [peek_eq, h, hd]
    · have hline : (c.counted d).rest = d :: t := by simp [h]
      simp only [peek_eq, h, List.head?_cons, Option.getD_some, ne_eq, hd, not_false_eq_true, atEnd_of_cons h, Bool.not_false,
        and_self, if_true, advance_cons hline, Option.bind_some, ← past_single]
      rw [ih (c.past [d]) (by simp [h])]
      simp [← past_append, hd]

/-- What a block comment takes behind its opening. -/
def commentTail (t : Text) : Text :=
  match Segment.closeComment? t with
  | some (body, _) => body ++ ['*', '/']
  | none => t

theorem commentTail_cons {d : Char} {t : Text} (h : ¬ (d = '*' ∧ t.head? = some '/')) :
    commentTail (d :: t) = d :: commentTail t := by
  unfold commentTail
  rw [Segment.closeComment?_cons h]
  cases Segment.closeComment? t <;> rfl

theorem skipBlockComment_eq (c : Cursor) : c.skipBlockComment = some (c.past (commentTail c.rest)) := by
  induction h : c.rest generalizing c with
  | nil =>
    rw [skipBlockComment_unfold]
    simp [atEnd_of_nil h, commentTail, Segment.closeComment?]
  | cons d t ih =>
    rw [skipBlockComment_unfold]
    by_cases hclose : d = '*' ∧ t.head? = some '/'
    · obtain ⟨rfl, ht⟩ := hclose
      obtain ⟨u, rfl⟩ : ∃ u, t = '/' :: u := by cases t <;> simp_all
      simp [atEnd_of_cons h, peek_eq, peekNext_eq, h, commentTail, Segment.closeComment?, past_of_no_break]
    · have hpeek : ¬ (c.peek = '*' ∧ c.peekNext = '/') := by
        rw [peek_eq, peekNext_eq, h]
        rintro ⟨rfl, hn⟩
        cases t with
        | nil => simp at hn
        | cons e u => simp at hn; simp [hn] at hclose
      simp only [atEnd_of_cons h, Bool.false_eq_true, if_false, hpeek, advance_cons h, Option.bind_some]
      rw [counted_moved, ← past_single, ih (c.past [d]) (by simp [h]), commentTail_cons hclose, ← past_append]
      rfl

/-! ## Lexemes -/

theorem slice_eq {c : Cursor} {a b u : Text} (h : c.rest = a ++ b ++ u) (hne : a ++ b ≠ []) :
    c.slice (c.current + a.length) (c.current + a.length + b.length) = some b := by
  have hlen := congrArg List.length h
  have hpos := List.length_pos_iff.mpr hne
  simp only [rest, List.length_drop, List.length_append, Array.length_toList] at hlen hpos
  have hcut : ((c.source.extract (c.current + a.length) (c.current + a.length + b.length)).toList) = b := by
    rw [Array.toList_extract, List.extract_eq_take_drop, ← List.drop_drop]
    change ((c.rest.drop a.length).take _) = b
    simp [h]
  rw [slice, if_pos ⟨by omega, by omega⟩, hcut]

theorem lexeme_past {c : Cursor} (hs : c.start = c.current) {t u : Text} (h : c.rest = t ++ u) (hne : t ≠ []) :
    (c.past t).lexeme = some t := by
  have hslice := slice_eq (c := c) (a := []) (b := t) (u := u) (by simpa using h) (by simpa using hne)
  simpa [lexeme, slice, past, hs] using hslice

/-- What comes of reading the segment from `c`. -/
def reads (s : Segment) (c : Cursor) : Option (Reading × Cursor) :=
  some (s.reading (c.line + s.text.lineBreaks), c.past s.text)

theorem mark_past {c : Cursor} (hs : c.start = c.current) {m : Mark} {u : Text} (h : c.rest = m.spelling ++ u) :
    (c.past m.spelling).mark m = c.reads (.mark m) := by
  simp [mark, lexeme_past hs h m.spelling_ne_nil, reads, Segment.reading, Segment.error?, Segment.token?, Segment.text]

theorem mark_eq {c : Cursor} (hs : c.start = c.current) {m : Mark} {d : Char} {t : Text} (h : c.rest = d :: t)
    (hm : m.spelling = [d]) (hnone : m.withEqual? = none) (hslash : m ≠ .slash) :
    (c.moved 1).mark m = c.reads (Segment.next d t).1 := by
  have hd : d ≠ '\n' := by
    rintro rfl
    cases m <;> simp [Mark.spelling] at hm
  rw [moved_one hd, ← hm, Segment.next_of_mark hm hslash, Segment.nextMark_of_none hnone]
  exact mark_past hs (m := m) (u := t) (by simp [h, hm])

theorem compound_eq {c : Cursor} (hs : c.start = c.current) {m n : Mark} {d : Char} {t : Text} (h : c.rest = d :: t)
    (hm : m.spelling = [d]) (hn : m.withEqual? = some n) :
    (c.moved 1).compound n m = c.reads (Segment.next d t).1 := by
  have hslash : m ≠ .slash := by
    rintro rfl
    cases hn
  rw [Segment.next_of_mark hm hslash]
  have hd : d ≠ '\n' := by
    rintro rfl
    cases m <;> simp [Mark.spelling] at hm
  have htail : (c.past [d]).rest = t := rest_past_of_append h
  rw [← moved_one hd] at htail
  simp only [compound, accept_eq, htail, Option.bind_eq_bind, Option.bind_some]
  by_cases he : t.head? = some '='
  · obtain ⟨u, rfl⟩ := List.head?_eq_some_iff.mp he
    have hspell := Mark.spelling_of_withEqual? hn
    have hboth : (c.past [d]).moved 1 = c.past n.spelling := by
      rw [moved_one (d := '=') (by decide), hspell, hm, past_append]
    rw [← moved_one hd] at hboth
    simp only [List.head?_cons, if_true, hboth, Segment.nextMark, hn]
    exact mark_past hs (m := n) (u := u) (by simp [h, hspell, hm])
  · simp only [he, if_false, Bool.false_eq_true, moved_one hd, ← hm, Segment.nextMark_of_ne he]
    exact mark_past hs (m := m) (u := t) (by simp [h, hm])

theorem slash_eq {c : Cursor} (hs : c.start = c.current) {t : Text} (h : c.rest = '/' :: t) :
    (c.moved 1).slash = c.reads (Segment.nextSlash t).1 := by
  have hslash : c.moved 1 = c.past ['/'] := moved_one (by decide) c
  have htail : (c.past ['/']).rest = t := rest_past_of_append h
  simp only [slash, accept_eq, hslash, htail, Option.bind_eq_bind, Option.bind_some]
  by_cases hline : t.head? = some '/'
  · obtain ⟨u, rfl⟩ := List.head?_eq_some_iff.mp hline
    have hopen : (c.past ['/']).moved 1 = c.past ['/', '/'] := by
      rw [moved_one (d := '/') (by decide), ← past_append]
      rfl
    have hskip : (c.past ['/', '/']).skipLineComment = some (c.past ('/' :: '/' :: u.takeWhile (· ≠ '\n'))) := by
      rw [skipLineComment_eq, rest_past_of_append (u := u) h, ← past_append]
      rfl
    simp only [List.head?_cons, if_true, hopen, hskip, Option.bind_some, Segment.nextSlash]
    rfl
  simp only [hline, if_false, Bool.false_eq_true, htail]
  by_cases hblock : t.head? = some '*'
  · obtain ⟨u, rfl⟩ := List.head?_eq_some_iff.mp hblock
    have hopen : (c.past ['/']).moved 1 = c.past ['/', '*'] := by
      rw [moved_one (d := '*') (by decide), ← past_append]
      rfl
    have hskip : (c.past ['/', '*']).skipBlockComment = some (c.past ('/' :: '*' :: commentTail u)) := by
      rw [skipBlockComment_eq, rest_past_of_append (u := u) h, ← past_append]
      rfl
    simp only [List.head?_cons, if_true, hopen, hskip, Option.bind_some, Segment.nextSlash]
    unfold commentTail
    cases Segment.closeComment? u <;> rfl
  · simp only [hblock, if_false, Bool.false_eq_true, Segment.nextSlash_of_ne hline hblock]
    exact mark_past hs (m := .slash) h

theorem blank_eq {d : Char} (hd : d ≠ '\n') (hb : isBlank d) (t : Text) (c : Cursor) :
    some (.ok none, c.moved 1) = c.reads (Segment.next d t).1 := by
  rw [Segment.next_of_isBlank hb, moved_one hd]
  rfl

theorem string_eq {c : Cursor} (hs : c.start = c.current) {t : Text} (h : c.rest = '"' :: t) :
    (c.moved 1).string = c.reads (Segment.nextString t).1 := by
  have hsplit := List.takeWhile_append_dropWhile (p := (· ≠ '"')) (l := t)
  have hquote : c.moved 1 = c.past ['"'] := moved_one (by decide) c
  have hskip : (c.past ['"']).skipString = some (c.past ('"' :: t.takeWhile (· ≠ '"'))) := by
    rw [skipString_eq, rest_past_of_append (u := t) h, ← past_append]
    rfl
  simp only [string, hquote, hskip, Option.bind_eq_bind, Option.bind_some, Segment.nextString]
  generalize t.takeWhile (· ≠ '"') = body at hsplit ⊢
  cases hdrop : t.dropWhile (· ≠ '"') with
  | nil =>
    rw [hdrop, List.append_nil] at hsplit
    subst hsplit
    have hend : (c.past ('"' :: body)).atEnd = true := atEnd_of_nil (rest_past_of_append (by simp [h]))
    simp [hend, reads, Segment.reading, Segment.error?, Segment.text]
  | cons e u =>
    obtain rfl := Segment.eq_of_dropWhile_ne hdrop
    rw [hdrop] at hsplit
    subst hsplit
    have hrest : (c.past ('"' :: body)).rest = '"' :: u := rest_past_of_append (by simp [h])
    have hclose : (c.past ('"' :: body)).moved 1 = c.past ('"' :: body ++ ['"']) := by
      rw [moved_one (d := '"') (by decide), ← past_append]
    have hbody := slice_eq (c := c) (a := ['"']) (b := body) (u := '"' :: u) h (List.cons_ne_nil _ _)
    have hlexeme := lexeme_past hs (t := '"' :: body ++ ['"']) (u := u) (by simp [h]) (List.cons_ne_nil _ _)
    have hlast : (c.past ('"' :: body ++ ['"'])).current - 1 = c.current + ['"'].length + body.length := by
      simp [past]
      omega
    have hinner : (c.past ('"' :: body ++ ['"'])).slice (c.start + 1) (c.current + ['"'].length + body.length) = some body := by
      rw [hs]
      exact hbody
    simp only [atEnd_of_cons hrest, Bool.false_eq_true, if_false, advance_cons hrest, hclose, Option.bind_some, hlexeme, hlast]
    change ((c.past _).slice (c.start + 1) _).bind _ = _
    rw [hinner]
    rfl

theorem skipFraction_of_not {c : Cursor} (h : ¬ Segment.StartsFraction c.rest) : c.skipFraction = some c := by
  have hpeek : ¬ (c.peek = '.' ∧ c.peekNext.isDigit) := by
    rintro ⟨hp, hn⟩
    rw [peek_eq] at hp
    rw [peekNext_eq] at hn
    match hr : c.rest with
    | [] | [_] => simp [hr] at hn
    | d :: e :: u =>
      simp only [hr, List.head?_cons, Option.getD_some] at hp
      exact h ⟨e, u, by rw [hr, hp], by simpa [hr] using hn⟩
  rw [skipFraction, if_neg hpeek]

theorem skipFraction_eq (whole : Text) (c : Cursor) :
    ∃ tail, (Segment.nextNumber whole c.rest).1.text = whole ++ tail ∧ c.skipFraction = some (c.past tail) := by
  by_cases hf : Segment.StartsFraction c.rest
  · obtain ⟨d, u, h, hd⟩ := hf
    refine ⟨'.' :: d :: u.takeWhile Char.isDigit, by simp [h, Segment.nextNumber, hd, Segment.text, Decimal.positional], ?_⟩
    have hpoint : c.moved 1 = c.past ['.'] := moved_one (by decide) c
    have hskip : (c.past ['.']).skipWhile Char.isDigit = some (c.past ('.' :: d :: u.takeWhile Char.isDigit)) := by
      rw [skipWhile_eq (by decide) (by decide), rest_past_of_append (u := d :: u) h, List.takeWhile_cons_of_pos hd,
        ← past_append]
      rfl
    simp [skipFraction, peek_eq, peekNext_eq, h, hd, advance_cons h, hpoint, hskip]
  · exact ⟨[], by simp [Segment.nextNumber_of_not hf, Segment.text, Decimal.positional], by simp [skipFraction_of_not hf]⟩

theorem number_eq {c : Cursor} (hs : c.start = c.current) {d : Char} {t : Text} (h : c.rest = d :: t) (hd : d.isDigit) :
    (c.moved 1).number = c.reads (Segment.nextNumber (d :: t.takeWhile Char.isDigit) (t.dropWhile Char.isDigit)).1 := by
  have hne : d ≠ '\n' := by
    rintro rfl
    simp at hd
  have hwhole : ∀ e ∈ d :: t.takeWhile Char.isDigit, e.isDigit := by
    intro e he
    rcases List.mem_cons.mp he with rfl | he
    · exact hd
    · exact mem_takeWhile he
  have hskip : (c.past [d]).skipWhile Char.isDigit = some (c.past (d :: t.takeWhile Char.isDigit)) := by
    rw [skipWhile_eq (by decide) (by decide), rest_past_of_append (u := t) h, ← past_append]
    rfl
  have hrest : (c.past (d :: t.takeWhile Char.isDigit)).rest = t.dropWhile Char.isDigit :=
    rest_past_of_append (by simp [h])
  obtain ⟨tail, htail, hfrac⟩ := skipFraction_eq (d :: t.takeWhile Char.isDigit) (c.past (d :: t.takeWhile Char.isDigit))
  rw [hrest] at htail
  have htext := Segment.nextNumber_text (d :: t.takeWhile Char.isDigit) (t.dropWhile Char.isDigit)
  obtain ⟨fraction, hseg, hdigits⟩ :=
    Segment.nextNumber_eq (d :: t.takeWhile Char.isDigit) (t.dropWhile Char.isDigit)
  rw [hseg] at htail htext ⊢
  have hlexeme := lexeme_past hs (t := Segment.text (.number (d :: t.takeWhile Char.isDigit) fraction))
    (by rw [htext]; simp [h]) (by rw [htail]; exact List.cons_ne_nil _ _)
  have hvalue := Decimal.ofText?_positional (List.cons_ne_nil _ _) hwhole hdigits
  simp only [number, moved_one hne, hskip, hfrac, ← past_append, ← htail, Option.bind_eq_bind, Option.bind_some, hlexeme]
  simp [Segment.text, Binary64.ofText, hvalue, reads, Segment.reading, Segment.error?, Segment.token?]

theorem word_eq {c : Cursor} (hs : c.start = c.current) {d : Char} {t : Text} (h : c.rest = d :: t) (hd : isWordStart d) :
    (c.moved 1).word = c.reads (.word (d :: t.takeWhile isWordPart)) := by
  have hne : d ≠ '\n' := by
    rintro rfl
    simp [isWordStart] at hd
  have hskip : (c.past [d]).skipWhile isWordPart = some (c.past (d :: t.takeWhile isWordPart)) := by
    rw [skipWhile_eq (by decide) (by decide), rest_past_of_append (u := t) h, ← past_append]
    rfl
  have hlexeme := lexeme_past hs (t := d :: t.takeWhile isWordPart) (u := t.dropWhile isWordPart) (by simp [h])
    (List.cons_ne_nil _ _)
  simp only [word, moved_one hne, hskip, Option.bind_eq_bind, Option.bind_some, hlexeme]
  rfl

/-! ## A step -/

theorem step_eq {c : Cursor} (hs : c.start = c.current) {d : Char} {t : Text} (h : c.rest = d :: t) :
    c.step = c.reads (Segment.next d t).1 := by
  simp only [step, advance_cons h, Option.bind_eq_bind, Option.bind_some]
  split
  iterate 10 exact mark_eq hs h rfl rfl (by decide)
  iterate 4 exact compound_eq hs h rfl rfl
  case h_15 => exact slash_eq hs h
  iterate 3 exact blank_eq (by decide) rfl t c
  case h_19 =>
    rw [Segment.next_of_isBlank rfl]
    simp [reads, Segment.text, past_single, counted, Segment.reading, Segment.error?, Segment.token?, moved, nextLine]
  case h_20 => exact string_eq hs h
  case h_21 =>
    split
    · next hd => rw [Segment.next_of_isDigit hd]; exact number_eq hs h hd
    split
    · next hd => rw [Segment.next_of_isWordStart hd]; exact word_eq hs h hd
    · next hdigit hword =>
      have hne : d ≠ '\n' := by assumption
      have hblank : ¬ isBlank d := by
        intro hb
        rcases isBlank_iff.mp hb with rfl | rfl | rfl | rfl <;> contradiction
      have hmark : ∀ m : Mark, m.spelling ≠ [d] := by
        intro m hm
        cases m <;> simp only [Mark.spelling, List.cons.injEq, reduceCtorEq, and_true, and_false] at hm <;> subst hm <;>
          contradiction
      rw [Segment.next_of_unexpected ⟨hblank, hword, hdigit, by assumption, hmark⟩, moved_one hne]
      simp [reads, Segment.text, Segment.reading, Segment.error?]

end Cursor

end LoxFront
