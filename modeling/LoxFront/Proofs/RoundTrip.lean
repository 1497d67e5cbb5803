/-
  LoxFront.Proofs.RoundTrip — from tokens to text and back.

  A scan returns well-formed tokens only. Well-formed tokens written one behind the other
  with blanks between them are scanned back as they are (`readings_joined`): a blank
  stops every lexeme, whatever the lexeme holds, and a string keeps the blanks, the line
  feeds and the comment marks that it holds.
-/

import LoxFront.Proofs.Form

namespace LoxFront

/-! ## Tokens with blanks behind them -/

/-- Each lexeme with the blanks behind it. -/
def joined (pairs : List (Form × Text)) : Text := pairs.flatMap fun p => p.1.lexeme ++ p.2

/-- Only blanks, and some between any two neighbours. -/
def Separated (pairs : List (Form × Text)) : Prop :=
  (∀ p ∈ pairs, ∀ c ∈ p.2, isBlank c) ∧ ∀ p ∈ pairs.dropLast, p.2 ≠ []

instance (pairs : List (Form × Text)) : Decidable (Separated pairs) :=
  decidable_of_iff ((pairs.all fun p => p.2.all isBlank) ∧ pairs.dropLast.all fun p => p.2 ≠ [])
    (by simp only [Separated, List.all_eq_true, decide_eq_true_eq])

/-- The forms behind the text `before`, each on the line that its lexeme ends on. -/
def placed (before : Text) : List (Form × Text) → List Token
  | [] => []
  | (f, sep) :: pairs =>
    f.onLine (1 + Text.lineBreaks (before ++ f.lexeme)) :: placed (before ++ f.lexeme ++ sep) pairs

theorem form_placed (before : Text) (pairs : List (Form × Text)) :
    (placed before pairs).map Token.form = pairs.map Prod.fst := by
  induction pairs generalizing before with
  | nil => rfl
  | cons p pairs ih => simp [placed, ih]

theorem separated_cons {p : Form × Text} {pairs : List (Form × Text)} (h : Separated (p :: pairs)) :
    (∀ c ∈ p.2, isBlank c) ∧ (p.2 = [] → pairs = []) ∧ Separated pairs := by
  obtain ⟨hblank, hne⟩ := h
  refine ⟨hblank p List.mem_cons_self, ?_, fun q hq => hblank q (List.mem_cons_of_mem p hq), ?_⟩
  · intro hp
    cases pairs with
    | nil => rfl
    | cons q pairs => exact absurd hp (hne p (by simp))
  · intro q hq
    cases pairs with
    | nil => cases hq
    | cons r pairs => exact hne q (by simpa using .inr hq)

/-! ## Blanks -/

/-- The character makes no token in front of it longer, nor another one. -/
def Severs (c : Char) : Prop := ¬ isWordPart c ∧ c ∉ ['=', '/', '*', '.']

instance (c : Char) : Decidable (Severs c) := inferInstanceAs (Decidable (_ ∧ _))

theorem severs_of_isBlank {c : Char} (h : isBlank c) : Severs c := by
  refine ⟨not_isWordPart_of_isBlank h, ?_⟩
  rcases isBlank_iff.mp h with rfl | rfl | rfl | rfl <;> decide

theorem stopsBefore_of_severs {s : Segment} {f : Form} (hs : s.form? = some f) {rest : Text}
    (h : ∀ c ∈ rest.head?, Severs c) : s.StopsBefore rest := by
  have hmark : ∀ c, ¬ Severs c → rest.head? ≠ some c := fun c hc he => hc (h c he)
  have hword : ∀ c ∈ rest.head?, ¬ isWordPart c := fun c hc => (h c hc).1
  have hdigit : ∀ c ∈ rest.head?, ¬ c.isDigit := fun c hc hd => hword c hc (isWordPart_of_isDigit hd)
  have hpoint : ¬ Segment.StartsFraction rest := by
    rintro ⟨d, u, rfl, -⟩
    exact hmark '.' (by decide) rfl
  cases s <;> cases hs
  case word.refl t => exact hword
  case number.refl whole fraction =>
    cases fraction with
    | nil => exact ⟨hdigit, hpoint⟩
    | cons d fraction => exact hdigit
  case string.refl body => trivial
  case mark.refl m =>
    cases m
    case bang | equal | less | greater => exact hmark '=' (by decide)
    case slash => exact ⟨hmark '/' (by decide), hmark '*' (by decide)⟩
    all_goals trivial

theorem segments_blanks {sep : Text} (h : ∀ c ∈ sep, isBlank c) (rest : Text) :
    segments (sep ++ rest) = sep.map .blank ++ segments rest := by
  induction sep with
  | nil => rfl
  | cons c sep ih =>
    have hc : (Segment.blank c).Prescribed (sep ++ rest) := ⟨h c List.mem_cons_self, trivial⟩
    have hnext := Segment.segments_of_prescribed hc
    rw [ih fun d hd => h d (List.mem_cons_of_mem c hd)] at hnext
    exact hnext

theorem flatMap_blanks (sep : Text) : (sep.map Segment.blank).flatMap Segment.text = sep := by
  induction sep with
  | nil => rfl
  | cons c sep ih => simp [ih, Segment.text]

theorem tokensFrom_blanks (line : Nat) (sep : Text) (segs : List Segment) :
    tokensFrom line (sep.map .blank ++ segs) = tokensFrom (line + Text.lineBreaks sep) segs := by
  have hnone : tokensFrom line (sep.map .blank) = [] := by
    rw [← List.map_eq_nil_iff, forms_tokensFrom, List.filterMap_eq_nil_iff]
    intro s hs
    obtain ⟨c, -, rfl⟩ := List.mem_map.mp hs
    rfl
  rw [tokensFrom_append, hnone, flatMap_blanks, List.nil_append]

theorem errorsFrom_blanks (line : Nat) (sep : Text) (segs : List Segment) :
    errorsFrom line (sep.map .blank ++ segs) = errorsFrom (line + Text.lineBreaks sep) segs := by
  have hnone : errorsFrom line (sep.map .blank) = [] := by
    refine errorsFrom_eq_nil ?_ line
    intro s hs
    obtain ⟨c, -, rfl⟩ := List.mem_map.mp hs
    exact fun _ => rfl
  rw [errorsFrom_append, hnone, flatMap_blanks, List.nil_append]

/-! ## There and back -/

theorem segments_joined {f : Form} {sep : Text} {pairs : List (Form × Text)} {s : Segment} (hshaped : s.Shaped)
    (hform : s.form? = some f) (hblank : ∀ c ∈ sep, isBlank c) (hlast : sep = [] → pairs = []) :
    segments (joined ((f, sep) :: pairs)) = s :: (sep.map .blank ++ segments (joined pairs)) := by
  have htext : joined ((f, sep) :: pairs) = s.text ++ (sep ++ joined pairs) := by
    simp [joined, Segment.text_of_form? hform]
  have hstop : ∀ c ∈ (sep ++ joined pairs).head?, Severs c := by
    cases sep with
    | nil => simp [hlast rfl, joined]
    | cons d sep =>
      intro c hc
      obtain rfl : d = c := by simpa using hc
      exact severs_of_isBlank (hblank d List.mem_cons_self)
  rw [htext, Segment.segments_of_prescribed ⟨hshaped, stopsBefore_of_severs hform hstop⟩, segments_blanks hblank]

/-- From any line on, the joined text reads as the forms in their places, without errors. -/
theorem readings_joined {pairs : List (Form × Text)} (hw : ∀ p ∈ pairs, WellFormed p.1) (hsep : Separated pairs)
    (before : Text) :
    tokensFrom (1 + before.lineBreaks) (segments (joined pairs)) = placed before pairs ∧
      errorsFrom (1 + before.lineBreaks) (segments (joined pairs)) = [] := by
  induction pairs generalizing before with
  | nil => simp [joined, segments, placed]
  | cons p pairs ih =>
    obtain ⟨f, sep⟩ := p
    obtain ⟨hblank, hlast, hrest⟩ := separated_cons hsep
    obtain ⟨s, hshaped, hform⟩ := wellFormed_iff.mp (hw (f, sep) List.mem_cons_self)
    obtain ⟨htokens, herrors⟩ := ih (fun q hq => hw q (List.mem_cons_of_mem _ hq)) hrest (before ++ f.lexeme ++ sep)
    simp only [Text.lineBreaks_append, ← Nat.add_assoc] at htokens herrors
    rw [segments_joined hshaped hform hblank hlast, tokensFrom_cons, errorsFrom_cons, tokensFrom_blanks, errorsFrom_blanks,
      Segment.token?_eq, Segment.error?_of_form? hform, Segment.text_of_form? hform, hform, htokens, herrors]
    simp [placed, Text.lineBreaks_append, Nat.add_assoc]

theorem wellFormed_of_mem_tokensFrom {source : Text} {line : Nat} {t : Token}
    (ht : t ∈ tokensFrom line (segments source)) : WellFormed t.form ∧ t.kind ≠ .eof := by
  have hform : t.form ∈ (segments source).filterMap Segment.form? := by
    rw [← forms_tokensFrom line]
    exact List.mem_map_of_mem ht
  obtain ⟨s, hs, hsome⟩ := List.mem_filterMap.mp hform
  exact ⟨wellFormed_iff.mpr ⟨s, shaped_of_mem_segments hs, hsome⟩, Segment.kind_ne_eof_of_form? hsome⟩

/-- The end of the source is the last token and no other one. -/
theorem tokens_before_eof (source : Text) :
    (scan source).tokens.filter (·.kind ≠ .eof) = tokensFrom 1 (segments source) := by
  have hkeep : (tokensFrom 1 (segments source)).filter (·.kind ≠ .eof) = tokensFrom 1 (segments source) :=
    List.filter_eq_self.mpr fun t ht => decide_eq_true (wellFormed_of_mem_tokensFrom ht).2
  rw [scan_eq, List.filter_append, hkeep]
  simp [Token.eof]

theorem scan_joined {pairs : List (Form × Text)} (hw : ∀ p ∈ pairs, WellFormed p.1) (hsep : Separated pairs) :
    scan (joined pairs) = ⟨placed [] pairs ++ [.eof (1 + (joined pairs).lineBreaks)], []⟩ := by
  obtain ⟨htokens, herrors⟩ := readings_joined hw hsep []
  rw [scan_eq, ← htokens, ← herrors]
  rfl

/-- A scan returns well-formed tokens only. Any well-formed tokens, joined with blanks,
    are scanned back: they alone, in their order, each on the line that its lexeme ends
    on, and no error. So the tokens of any source can be joined again, whatever stood
    between them, and are the same tokens. -/
theorem scan_round_trip :
    (∀ source, ∀ t ∈ (scan source).tokens, t.kind ≠ .eof → WellFormed t.form) ∧
      (∀ pairs, (∀ p ∈ pairs, WellFormed p.1) → Separated pairs →
        scan (joined pairs) = ⟨placed [] pairs ++ [.eof (1 + (joined pairs).lineBreaks)], []⟩) ∧
      ∀ source pairs, pairs.map Prod.fst = ((scan source).tokens.filter (·.kind ≠ .eof)).map Token.form →
        Separated pairs →
        (scan (joined pairs)).tokens.map Token.form = (scan source).tokens.map Token.form ∧
          (scan (joined pairs)).errors = [] := by
  refine ⟨?_, fun pairs hw hsep => scan_joined hw hsep, ?_⟩
  · intro source t ht hk
    have hmem : t ∈ (scan source).tokens.filter (·.kind ≠ .eof) := List.mem_filter.mpr ⟨ht, decide_eq_true hk⟩
    rw [tokens_before_eof] at hmem
    exact (wellFormed_of_mem_tokensFrom hmem).1
  · intro source pairs hpairs hsep
    rw [tokens_before_eof] at hpairs
    have hw : ∀ p ∈ pairs, WellFormed p.1 := by
      intro p hp
      have hform : p.1 ∈ (tokensFrom 1 (segments source)).map Token.form := hpairs ▸ List.mem_map_of_mem hp
      obtain ⟨t, ht, hpt⟩ := List.mem_map.mp hform
      exact hpt ▸ (wellFormed_of_mem_tokensFrom ht).1
    rw [scan_joined hw hsep, scan_eq source, List.map_append, List.map_append, form_placed, hpairs]
    exact ⟨rfl, rfl⟩

/-- A string that holds a line feed and a comment mark, between a keyword and a number. -/
def blankSeparated : List (Form × Text) :=
  [(⟨.keyword .or_, "or".toList, none⟩, "\t".toList),
    (⟨.string, '"' :: "x\n//".toList ++ ['"'], some (.text "x\n//".toList)⟩, "\n ".toList),
    (⟨.number, "1.5".toList, some (.number (.positive (Decimal.ofDigits ['1'] ['5']).nearest))⟩, [])]

theorem scan_blankSeparated :
    Separated blankSeparated ∧ (joined blankSeparated = "or\t\"x\n//\"\n 1.5".toList) ∧
      scan (joined blankSeparated) =
        ⟨[⟨.keyword .or_, "or".toList, none, 1⟩, ⟨.string, "\"x\n//\"".toList, some (.text "x\n//".toList), 2⟩,
          ⟨.number, "1.5".toList, some (.number (.positive (Decimal.ofDigits ['1'] ['5']).nearest)), 3⟩, .eof 3], []⟩ := by
  have hw : ∀ p ∈ blankSeparated, WellFormed p.1 := by
    intro p hp
    simp only [blankSeparated, List.mem_cons, List.not_mem_nil, or_false] at hp
    rcases hp with rfl | rfl | rfl
    · exact .keyword .or_
    · exact .string (by decide)
    · exact @WellFormed.number ['1'] ['5'] (by decide) (List.all_eq_true.mp (by decide)) (List.all_eq_true.mp (by decide))
  have hsep : Separated blankSeparated := by decide
  exact ⟨hsep, by decide, scan_round_trip.2.1 blankSeparated hw hsep⟩

end LoxFront
