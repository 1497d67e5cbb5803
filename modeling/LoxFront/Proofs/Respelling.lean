/-
  LoxFront.Proofs.Respelling — sources that differ in what the grammar does not tell apart.

  No lexeme but a string holds a foreign character, and to the grammar one is as good as
  another, NUL included. Nor does it see whether blanks stand in front of a line feed. A
  respelling changes both everywhere in a text. No lexeme goes on or stops at what it puts
  in (`head_text`), so what is read in the respelled text is respelled and otherwise the
  same (`readings_text`). Only a line comment takes in the blanks at its end.

  Two respellings count by themselves: foreign characters that give way to others
  (`scan_relabelled`), and line feeds that get a carriage return (`scan_crlf`).
-/

import LoxFront.Proofs.Seam

namespace LoxFront

/-! ## Foreign characters -/

def markCharacters : Text := "()\x7b\x7d,.-+;*!=<>/".toList

/-- Neither a letter nor a digit, nor of any other use to the grammar. -/
def isForeign (c : Char) : Bool := !c.isAlphanum && c ∉ "_\" \t\r\n".toList ++ markCharacters

theorem mem_markCharacters_iff {c : Char} : c ∈ markCharacters ↔ ∃ m : Mark, m.spelling = [c] := by
  constructor
  · intro h
    have hall : ∀ d ∈ markCharacters, (Mark.ofChar? d).isSome := List.all_eq_true.mp (by decide)
    obtain ⟨m, hm⟩ := Option.isSome_iff_exists.mp (hall c h)
    exact ⟨m, Mark.spelling_of_ofChar? hm⟩
  · intro h
    obtain ⟨m, hm⟩ := h
    cases m <;> cases hm <;> decide

/-- The foreign characters are those that a scan reports. -/
theorem isForeign_iff {c : Char} : isForeign c ↔ Segment.Unexpected c := by
  have hmarks : (∀ m : Mark, m.spelling ≠ [c]) ↔ c ∉ markCharacters := by
    rw [mem_markCharacters_iff, not_exists]
  simp only [Segment.Unexpected, hmarks]
  simp [isForeign, Char.isAlphanum, isWordStart, isBlank]
  grind

theorem not_isForeign_of_isWordPart {c : Char} (h : isWordPart c) : ¬ isForeign c := by
  intro hc
  obtain ⟨-, hstart, hdigit, -, -⟩ := isForeign_iff.mp hc
  simp [isWordPart, hstart, hdigit] at h

theorem not_isForeign_of_isBlank {c : Char} (h : isBlank c) : ¬ isForeign c :=
  fun hc => (isForeign_iff.mp hc).1 h

theorem severs_of_isForeign {c : Char} (h : isForeign c) : Severs c := by
  refine ⟨fun hpart => not_isForeign_of_isWordPart hpart h, ?_⟩
  intro hc
  have hnone : ∀ d ∈ ['=', '/', '*', '.'], !isForeign d := List.all_eq_true.mp (by decide)
  exact absurd (hnone c hc) (by simp [h])

/-! ## Respellings -/

/-- Foreign characters give way to foreign ones, and each line feed gets blanks in front. -/
structure Respelling where
  char : Char → Char
  pad : Text
  foreign : ∀ c, isForeign c → isForeign (char c)
  familiar : ∀ c, ¬ isForeign c → char c = c
  blank : ∀ c ∈ pad, isBlank c ∧ c ≠ '\n'

def Literal.respelled (respell : Text → Text) : Literal → Literal
  | .number x => .number x
  | .text t => .text (respell t)

/-- The token with its lexeme and its text respelled. -/
def Token.respelled (respell : Text → Text) (t : Token) : Token :=
  { t with lexeme := respell t.lexeme, literal := t.literal.map (Literal.respelled respell) }

/-- The error with the character that it reports replaced. -/
def LexicalError.respelled (char : Char → Char) : LexicalError → LexicalError
  | .unexpected line c => .unexpected line (char c)
  | .unterminated line => .unterminated line

namespace Respelling

variable (r : Respelling)

def ending : Text := r.pad ++ ['\n']

def text (t : Text) : Text := t.flatMap fun c => if c = '\n' then r.ending else [r.char c]

theorem text_append (t u : Text) : r.text (t ++ u) = r.text t ++ r.text u := List.flatMap_append

theorem text_lineFeed (t : Text) : r.text ('\n' :: t) = r.ending ++ r.text t := by simp [text]

theorem text_cons {c : Char} (h : c ≠ '\n') (t : Text) : r.text (c :: t) = r.char c :: r.text t := by simp [text, h]

theorem isBlank_ending : ∀ c ∈ r.ending, isBlank c := by
  intro c hc
  rcases List.mem_append.mp hc with hc | hc
  · exact (r.blank c hc).1
  · rw [List.mem_singleton.mp hc]
    decide

theorem isBlank_text {c : Char} (h : isBlank c) : ∀ d ∈ r.text [c], isBlank d := by
  by_cases hc : c = '\n'
  · subst hc
    rw [text_lineFeed, show r.text [] = [] from rfl, List.append_nil]
    exact r.isBlank_ending
  · intro d hd
    rw [r.text_cons hc, r.familiar c (not_isForeign_of_isBlank h)] at hd
    rwa [List.mem_singleton.mp hd]

theorem lineBreaks_ending : Text.lineBreaks r.ending = 1 := by
  have hpad : List.count '\n' r.pad = 0 := List.count_eq_zero.mpr fun hp => (r.blank '\n' hp).2 rfl
  simp [ending, Text.lineBreaks, hpad]

/-- No respelling touches it: it has neither foreign characters nor line feeds. -/
def Familiar (t : Text) : Prop := ∀ c ∈ t, ¬ isForeign c ∧ c ≠ '\n'

instance (t : Text) : Decidable (Familiar t) := List.decidableBAll _ t

theorem text_familiar {t : Text} (h : Familiar t) (u : Text) : r.text (t ++ u) = t ++ r.text u := by
  induction t with
  | nil => rfl
  | cons c t ih =>
    obtain ⟨⟨hc, hbreak⟩, ht⟩ := List.forall_mem_cons.mp h
    rw [List.cons_append, r.text_cons hbreak, r.familiar c hc, ih ht, List.cons_append]

theorem text_of_familiar {t : Text} (h : Familiar t) : r.text t = t := by
  have htext := r.text_familiar h []
  rwa [List.append_nil, show r.text [] = [] from rfl, List.append_nil] at htext

theorem char_ne_lineFeed {c : Char} (h : c ≠ '\n') : r.char c ≠ '\n' := by
  by_cases hc : isForeign c
  · intro he
    exact absurd (he ▸ r.foreign c hc) (by decide)
  · rwa [r.familiar c hc]

/-- A familiar character is only put where it stands already. -/
theorem eq_of_char_eq {c d : Char} (hd : ¬ isForeign d) (h : r.char c = d) : c = d := by
  by_cases hc : isForeign c
  · exact absurd (h ▸ r.foreign c hc) hd
  · rw [← h, r.familiar c hc]

theorem mem_text {d : Char} (hd : ¬ isForeign d) (hpad : d ∉ r.pad) {t : Text} (h : d ∈ r.text t) : d ∈ t := by
  induction t with
  | nil => exact h
  | cons c t ih =>
    by_cases hc : c = '\n'
    · subst hc
      rw [text_lineFeed, ending, List.append_assoc, List.mem_append, List.singleton_append, List.mem_cons] at h
      rcases h with h | h | h
      · exact absurd h hpad
      · exact List.mem_cons.mpr (.inl h)
      · exact List.mem_cons_of_mem _ (ih h)
    · rw [r.text_cons hc, List.mem_cons] at h
      rcases h with h | h
      · exact List.mem_cons.mpr (.inl (r.eq_of_char_eq hd h.symm).symm)
      · exact List.mem_cons_of_mem _ (ih h)

theorem quote_not_mem_text {t : Text} (h : '"' ∉ t) : '"' ∉ r.text t := by
  have hpad : '"' ∉ r.pad := fun hp => absurd (r.blank '"' hp).1 (by decide)
  exact fun ht => h (r.mem_text (by decide) hpad ht)

theorem lineFeed_not_mem_text {t : Text} (h : '\n' ∉ t) : '\n' ∉ r.text t := by
  have hpad : '\n' ∉ r.pad := fun hp => (r.blank '\n' hp).2 rfl
  exact fun ht => h (r.mem_text (by decide) hpad ht)

theorem lineBreaks_text (t : Text) : (r.text t).lineBreaks = t.lineBreaks := by
  induction t with
  | nil => rfl
  | cons c t ih =>
    by_cases hc : c = '\n'
    · subst hc
      rw [text_lineFeed, Text.lineBreaks_append, r.lineBreaks_ending, ih, Nat.add_comm]
      exact List.count_cons_self.symm
    · rw [r.text_cons hc]
      show List.count '\n' (r.char c :: r.text t) = List.count '\n' (c :: t)
      rw [List.count_cons_of_ne (r.char_ne_lineFeed hc), List.count_cons_of_ne hc]
      exact ih

/-! ## What a lexeme sees of a respelled text -/

/-- A respelled text begins as before, or with a character that ends every lexeme. -/
theorem head_text {t : Text} {d : Char} (h : d ∈ (r.text t).head?) : d ∈ t.head? ∨ Severs d := by
  cases t with
  | nil => cases h
  | cons c t =>
    by_cases hc : c = '\n'
    · subst hc
      refine .inr (severs_of_isBlank (r.isBlank_ending d ?_))
      rw [text_lineFeed] at h
      have hne : r.ending ≠ [] := List.append_ne_nil_of_right_ne_nil r.pad (List.cons_ne_nil '\n' [])
      obtain ⟨b, u, hending⟩ := List.exists_cons_of_ne_nil hne
      rw [hending] at h ⊢
      cases h
      exact List.mem_cons_self
    · rw [r.text_cons hc] at h
      cases h
      by_cases hforeign : isForeign c
      · exact .inr (severs_of_isForeign (r.foreign c hforeign))
      · exact .inl (congrArg some (r.familiar c hforeign).symm)

theorem startsFraction_text {t : Text} (h : Segment.StartsFraction (r.text t)) : Segment.StartsFraction t := by
  have hpoint : '.' ∈ t.head? := by
    obtain ⟨d, u, htext, -⟩ := h
    exact (r.head_text (by rw [htext]; rfl)).resolve_right (by decide)
  obtain ⟨u, rfl⟩ := List.head?_eq_some_iff.mp hpoint
  have htext : r.text ('.' :: u) = '.' :: r.text u := r.text_familiar (t := ['.']) (by decide) u
  rw [htext, startsFraction_point] at h
  obtain ⟨d, hd, hdigit⟩ := h
  rw [startsFraction_point]
  refine ⟨d, (r.head_text hd).resolve_right ?_, hdigit⟩
  exact fun hsevers => hsevers.1 (isWordPart_of_isDigit hdigit)

theorem stopsBefore_text {s : Segment} {t : Text} (hline : ∀ body, s ≠ .lineComment body) (h : s.StopsBefore t) :
    s.StopsBefore (r.text t) := by
  cases hform : s.form? with
  | none =>
    cases s with
    | mark | word | number | string => cases hform
    | openString | openComment =>
      obtain rfl : t = [] := h
      rfl
    | lineComment body => exact absurd rfl (hline body)
    | blockComment | blank | unexpected => trivial
  | some f =>
    by_cases hsevers : ∀ d ∈ (r.text t).head?, Severs d
    · exact stopsBefore_of_severs hform hsevers
    · refine Segment.stopsBefore_of_head h ?_ fun _ => r.startsFraction_text
      intro d hd
      refine (r.head_text hd).imp_right fun hs => absurd ?_ hsevers
      intro e he
      rwa [Option.mem_unique he hd]

theorem closes_blanks {pad t : Text} (hpad : ∀ b ∈ pad, isBlank b) (h : ['*', '/'] <:+: pad ++ t) : ['*', '/'] <:+: t := by
  induction pad with
  | nil => exact h
  | cons b pad ih =>
    obtain ⟨hb, hpad⟩ := List.forall_mem_cons.mp hpad
    rw [List.cons_append, Segment.closes_cons] at h
    refine ih hpad (h.resolve_left ?_)
    rintro ⟨rfl, -⟩
    exact absurd hb (by decide)

theorem closes_text {t : Text} (h : ['*', '/'] <:+: r.text t) : ['*', '/'] <:+: t := by
  induction t with
  | nil => exact h
  | cons c t ih =>
    rw [Segment.closes_cons]
    by_cases hc : c = '\n'
    · subst hc
      rw [text_lineFeed] at h
      exact .inr (ih (closes_blanks r.isBlank_ending h))
    · rw [r.text_cons hc, Segment.closes_cons] at h
      rcases h with ⟨hstar, hslash⟩ | hlater
      · refine .inl ⟨r.eq_of_char_eq (by decide) hstar, ?_⟩
        exact (r.head_text hslash).resolve_right (by decide)
      · exact .inr (ih hlater)

/-! ## One segment -/

/-- A line comment and a line feed depend on each other and have no place here. -/
def segment : Segment → Segment
  | .string body => .string (r.text body)
  | .openString body => .openString (r.text body)
  | .blockComment body => .blockComment (r.text body)
  | .openComment body => .openComment (r.text body)
  | .unexpected c => .unexpected (r.char c)
  | s => s

/-- A segment that the respelling leaves in one piece. -/
def Whole (s : Segment) : Prop := (∀ c, s ≠ .blank c) ∧ ∀ body, s ≠ .lineComment body

theorem not_whole_iff {s : Segment} : ¬ Whole s ↔ (∃ c, s = .blank c) ∨ ∃ body, s = .lineComment body := by
  simp only [Whole, Classical.not_and_iff_not_or_not, Classical.not_forall, Classical.not_not]

theorem familiar_run {p : Char → Bool} (hp : ∀ c, p c → isWordPart c) {t : Text} (h : ∀ c ∈ t, p c) : Familiar t := by
  intro c hc
  have hpart := hp c (h c hc)
  refine ⟨not_isForeign_of_isWordPart hpart, ?_⟩
  rintro rfl
  exact absurd hpart (by decide)

theorem Familiar.append {t u : Text} (ht : Familiar t) (hu : Familiar u) : Familiar (t ++ u) :=
  List.forall_mem_append.mpr ⟨ht, hu⟩

theorem familiar_word {t : Text} (h : (Segment.word t).Shaped) : Familiar t := by
  obtain ⟨c, u, rfl, hc, hu⟩ := h
  exact familiar_run (fun _ hd => hd) (List.forall_mem_cons.mpr ⟨isWordPart_of_isWordStart hc, hu⟩)

theorem familiar_number {whole fraction : Text} (h : (Segment.number whole fraction).Shaped) :
    Familiar (Decimal.positional whole fraction) := by
  obtain ⟨-, hw, hf⟩ := h
  have hwhole : Familiar whole := familiar_run (fun _ => isWordPart_of_isDigit) hw
  cases fraction with
  | nil => exact hwhole
  | cons d fraction =>
    have hpoint : Familiar ['.'] := by decide
    exact hwhole.append (hpoint.append (familiar_run (fun _ => isWordPart_of_isDigit) hf))

theorem text_segment {s : Segment} (hs : s.Shaped) (hwhole : Whole s) : (r.segment s).text = r.text s.text := by
  cases s with
  | mark m =>
    have hspelling : Familiar m.spelling := by cases m <;> decide
    exact (r.text_of_familiar hspelling).symm
  | word t => exact (r.text_of_familiar (familiar_word hs)).symm
  | number whole fraction => exact (r.text_of_familiar (familiar_number hs)).symm
  | string body =>
    show ['"'] ++ (r.text body ++ ['"']) = r.text (['"'] ++ (body ++ ['"']))
    rw [r.text_familiar (by decide), text_append, r.text_of_familiar (t := ['"']) (by decide)]
  | openString body => exact (r.text_familiar (t := ['"']) (by decide) body).symm
  | blockComment body =>
    show ['/', '*'] ++ (r.text body ++ ['*', '/']) = r.text (['/', '*'] ++ (body ++ ['*', '/']))
    rw [r.text_familiar (by decide), text_append, r.text_of_familiar (t := ['*', '/']) (by decide)]
  | openComment body => exact (r.text_familiar (t := ['/', '*']) (by decide) body).symm
  | lineComment body => exact absurd rfl (hwhole.2 body)
  | blank c => exact absurd rfl (hwhole.1 c)
  | unexpected c =>
    have hbreak : c ≠ '\n' := by
      rintro rfl
      exact hs.1 rfl
    exact (r.text_cons hbreak []).symm

theorem shaped_segment {s : Segment} (hs : s.Shaped) (hwhole : Whole s) : (r.segment s).Shaped := by
  cases s with
  | mark | word | number => exact hs
  | string | openString => exact r.quote_not_mem_text hs
  | blockComment body =>
    intro h
    have hstar : r.text (body ++ ['*']) = r.text body ++ ['*'] := by
      rw [text_append, r.text_of_familiar (t := ['*']) (by decide)]
    exact hs (r.closes_text (hstar ▸ h))
  | openComment body => exact fun h => hs (r.closes_text h)
  | lineComment body => exact absurd rfl (hwhole.2 body)
  | blank c => exact absurd rfl (hwhole.1 c)
  | unexpected c => exact isForeign_iff.mp (r.foreign c (isForeign_iff.mpr hs))

theorem prescribed_segment {s : Segment} {rest : Text} (h : s.Prescribed rest) (hwhole : Whole s) :
    (r.segment s).Prescribed (r.text rest) := by
  refine ⟨r.shaped_segment h.1 hwhole, ?_⟩
  have hstop := r.stopsBefore_text hwhole.2 h.2
  cases s <;> exact hstop

theorem token?_segment {s : Segment} (hs : s.Shaped) (hwhole : Whole s) (line : Nat) :
    (r.segment s).token? line = (s.token? line).map (Token.respelled r.text) := by
  have htext := r.text_segment hs hwhole
  cases s with
  | mark m => exact congrArg (fun lexeme => some (⟨.mark m, lexeme, none, line⟩ : Token)) htext
  | word t => exact congrArg (fun lexeme => some (⟨.ofWord t, lexeme, none, line⟩ : Token)) htext
  | number whole fraction =>
    exact congrArg (fun lexeme =>
      some (⟨.number, lexeme, some (.number (.positive (Decimal.ofDigits whole fraction).nearest)), line⟩ : Token)) htext
  | string body => exact congrArg (fun lexeme => some (⟨.string, lexeme, some (.text (r.text body)), line⟩ : Token)) htext
  | openString | blockComment | openComment | lineComment | blank | unexpected => rfl

theorem error?_segment (s : Segment) (line : Nat) :
    (r.segment s).error? line = (s.error? line).map (LexicalError.respelled r.char) := by
  cases s <;> rfl

/-! ## All segments -/

/-- Blanks in front of a text change its lines, and no more. -/
theorem readings_blanks (line : Nat) {sep : Text} (h : ∀ c ∈ sep, isBlank c) (rest : Text) :
    tokensFrom line (segments (sep ++ rest)) = tokensFrom (line + sep.lineBreaks) (segments rest) ∧
      errorsFrom line (segments (sep ++ rest)) = errorsFrom (line + sep.lineBreaks) (segments rest) := by
  rw [segments_blanks h, tokensFrom_blanks, errorsFrom_blanks]
  exact ⟨rfl, rfl⟩

theorem lineBreaks_lineComment {body : Text} (h : '\n' ∉ body) : Text.lineBreaks (Segment.text (.lineComment body)) = 0 := by
  simp [Segment.text, Text.lineBreaks, List.count_eq_zero.mpr h]

/-- A line comment takes in the blanks in front of the line feed that ends it. -/
theorem readings_lineComment (line : Nat) {body rest : Text} (hbody : '\n' ∉ body) (hrest : ∀ c ∈ rest.head?, c = '\n') :
    tokensFrom line (segments (r.text ('/' :: '/' :: body ++ rest))) = tokensFrom line (segments (r.text rest)) ∧
      errorsFrom line (segments (r.text ('/' :: '/' :: body ++ rest))) = errorsFrom line (segments (r.text rest)) := by
  obtain ⟨pad, tail, htext, hpad, htail⟩ : ∃ pad tail, r.text rest = pad ++ tail ∧
      (∀ c ∈ pad, isBlank c ∧ c ≠ '\n') ∧ ∀ c ∈ tail.head?, c = '\n' := by
    cases rest with
    | nil => exact ⟨[], [], rfl, by simp, by simp⟩
    | cons c rest =>
      obtain rfl := hrest c rfl
      exact ⟨r.pad, '\n' :: r.text rest, by rw [text_lineFeed, ending, List.append_assoc]; rfl, r.blank, by simp⟩
  have hcomment : r.text ('/' :: '/' :: body ++ rest) = Segment.text (.lineComment (r.text body ++ pad)) ++ tail := by
    show r.text (['/', '/'] ++ (body ++ rest)) = ['/', '/'] ++ (r.text body ++ pad) ++ tail
    rw [r.text_familiar (by decide), text_append, htext, List.append_assoc, List.append_assoc]
  have hshaped : (Segment.lineComment (r.text body ++ pad)).Shaped := by
    intro h
    rcases List.mem_append.mp h with h | h
    · exact r.lineFeed_not_mem_text hbody h
    · exact (hpad '\n' h).2 rfl
  have hpadbreak : Text.lineBreaks pad = 0 := List.count_eq_zero.mpr fun h => (hpad '\n' h).2 rfl
  have hblanks := readings_blanks line (fun c hc => (hpad c hc).1) tail
  rw [hcomment, Segment.segments_of_prescribed ⟨hshaped, htail⟩, tokensFrom_cons, errorsFrom_cons,
    lineBreaks_lineComment hshaped, htext, hblanks.1, hblanks.2, hpadbreak]
  exact ⟨rfl, rfl⟩

/-- From any line on, what is read in a respelled text is what is read in the text,
    respelled. -/
theorem readings_text {segs : List Segment} (h : ReadBefore [] segs) (line : Nat) :
    tokensFrom line (segments (r.text (segs.flatMap Segment.text))) = (tokensFrom line segs).map (Token.respelled r.text) ∧
      errorsFrom line (segments (r.text (segs.flatMap Segment.text))) =
        (errorsFrom line segs).map (LexicalError.respelled r.char) := by
  induction segs generalizing line with
  | nil => simp [segments, text]
  | cons s segs ih =>
    obtain ⟨hs, hrest⟩ := h
    rw [List.append_nil] at hs
    obtain ⟨htokens, herrors⟩ := ih hrest (line + s.text.lineBreaks)
    rw [List.flatMap_cons, tokensFrom_cons, errorsFrom_cons, List.map_append, List.map_append, ← htokens, ← herrors]
    by_cases hwhole : Whole s
    · have hbreaks := r.lineBreaks_text s.text
      rw [← r.text_segment hs.1 hwhole] at hbreaks
      rw [text_append, ← r.text_segment hs.1 hwhole, Segment.segments_of_prescribed (r.prescribed_segment hs hwhole),
        tokensFrom_cons, errorsFrom_cons, hbreaks, r.token?_segment hs.1 hwhole, r.error?_segment]
      simp [Option.toList_map]
    · rcases not_whole_iff.mp hwhole with ⟨c, rfl⟩ | ⟨body, rfl⟩
      · rw [text_append]
        obtain ⟨htokens, herrors⟩ := readings_blanks line (r.isBlank_text hs.1) (r.text (segs.flatMap Segment.text))
        rw [r.lineBreaks_text] at htokens herrors
        exact ⟨htokens, herrors⟩
      · obtain ⟨hcomment, herrors⟩ := r.readings_lineComment line hs.1 hs.2
        rw [lineBreaks_lineComment hs.1]
        exact ⟨hcomment, herrors⟩

theorem scan_text (source : Text) :
    scan (r.text source) =
      ⟨(scan source).tokens.map (Token.respelled r.text), (scan source).errors.map (LexicalError.respelled r.char)⟩ := by
  obtain ⟨htokens, herrors⟩ := r.readings_text (readBefore_segments source) 1
  rw [flatten_segments] at htokens herrors
  rw [scan_eq, scan_eq, htokens, herrors, r.lineBreaks_text, List.map_append]
  rfl

end Respelling

/-! ## Foreign characters for foreign ones -/

def relabelling (f : Char → Char) (hforeign : ∀ c, isForeign c → isForeign (f c))
    (hfamiliar : ∀ c, ¬ isForeign c → f c = c) : Respelling :=
  ⟨f, [], hforeign, hfamiliar, by simp⟩

theorem text_relabelling {f : Char → Char} (hforeign : ∀ c, isForeign c → isForeign (f c))
    (hfamiliar : ∀ c, ¬ isForeign c → f c = c) (t : Text) : (relabelling f hforeign hfamiliar).text t = t.map f := by
  induction t with
  | nil => rfl
  | cons c t ih =>
    by_cases hc : c = '\n'
    · subst hc
      rw [Respelling.text_lineFeed, ih, List.map_cons, hfamiliar '\n' (by decide)]
      rfl
    · rw [Respelling.text_cons _ hc, ih, List.map_cons]
      rfl

/-- To a scan all foreign characters are alike, NUL too. Where each of them gives way to a
    foreign character, two perhaps to the same one, all tokens keep their kind, number and
    line, their lexemes and texts are changed as the source was, and each error keeps its
    line and reports what stands in the place of its character. -/
theorem scan_relabelled {f : Char → Char} (hforeign : ∀ c, isForeign c → isForeign (f c))
    (hfamiliar : ∀ c, ¬ isForeign c → f c = c) (source : Text) :
    scan (source.map f) =
      ⟨(scan source).tokens.map (Token.respelled (List.map f)), (scan source).errors.map (LexicalError.respelled f)⟩ := by
  have hscan := (relabelling f hforeign hfamiliar).scan_text source
  rw [funext (text_relabelling hforeign hfamiliar)] at hscan
  exact hscan

/-- NUL and two others change places, and two become one. -/
def blurred (c : Char) : Char := if c = '\x00' then '@' else if c = '@' ∨ c = 'é' then '\x00' else c

theorem scan_blurred :
    (∀ c, isForeign c → isForeign (blurred c)) ∧ (∀ c, ¬ isForeign c → blurred c = c) ∧
      scan ("1.\x00\"é\n\x00\"a@b//@".toList.map blurred) =
        ⟨[⟨.number, ['1'], some (.number (.positive (Decimal.ofDigits ['1'] []).nearest)), 1⟩, ⟨.mark .dot, ['.'], none, 1⟩,
          ⟨.string, "\"\x00\n@\"".toList, some (.text "\x00\n@".toList), 2⟩, ⟨.identifier, ['a'], none, 2⟩,
          ⟨.identifier, ['b'], none, 2⟩, .eof 2],
        [.unexpected 1 '@', .unexpected 2 '\x00']⟩ := by
  have hforeign : ∀ c, isForeign c → isForeign (blurred c) := by
    intro c hc
    unfold blurred
    split
    · decide
    split
    · decide
    · exact hc
  have hfamiliar : ∀ c, ¬ isForeign c → blurred c = c := by
    intro c hc
    have hnul : c ≠ '\x00' := by
      rintro rfl
      exact hc (by decide)
    have hother : ¬ (c = '@' ∨ c = 'é') := by
      rintro (rfl | rfl) <;> exact hc (by decide)
    rw [blurred, if_neg hnul, if_neg hother]
  exact ⟨hforeign, hfamiliar, (scan_relabelled hforeign hfamiliar _).trans (by decide +kernel)⟩

/-! ## Line feeds with a carriage return -/

/-- Each line feed with a carriage return in front. -/
def crlf (t : Text) : Text := t.flatMap fun c => if c = '\n' then ['\r', '\n'] else [c]

def carriageReturns : Respelling := ⟨id, ['\r'], fun _ h => h, fun _ _ => rfl, List.forall_mem_singleton.mpr (by decide)⟩

theorem text_carriageReturns : carriageReturns.text = crlf := rfl

theorem LexicalError.respelled_id (e : LexicalError) : e.respelled id = e := by cases e <;> rfl

/-- Carriage returns in front of the line feeds leave every token its kind and its line,
    its lexeme and its text get them where they hold a line feed, and the same errors are
    reported. -/
theorem scan_crlf (source : Text) :
    scan (crlf source) = ⟨(scan source).tokens.map (Token.respelled crlf), (scan source).errors⟩ := by
  have herrors : (scan source).errors.map (LexicalError.respelled id) = (scan source).errors :=
    (List.map_congr_left fun e _ => e.respelled_id).trans (List.map_id _)
  have hscan := carriageReturns.scan_text source
  rw [text_carriageReturns, show carriageReturns.char = id from rfl, herrors] at hscan
  exact hscan

end LoxFront
