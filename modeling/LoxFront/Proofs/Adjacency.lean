/-
  LoxFront.Proofs.Adjacency — which tokens may stand side by side with nothing between.

  A token takes in more than its lexeme, or becomes another one, only for the first
  characters of the next one or two tokens. Which characters these can be is known from
  the kinds alone (`Opens`), so whether every segment stops where its lexeme ends is a
  question about neighbouring kinds (`stopsBefore_iff`), and about one point in a number.

  A conflict always shows: if the forms came out unchanged, their lexemes would already
  make up the whole source, so nothing of it would be left for a comment or an error.
-/

import LoxFront.Proofs.Form

namespace LoxFront

namespace Form

def IsWord (f : Form) : Prop := f.kind = .identifier ∨ f.kind.isKeyword

instance (f : Form) : Decidable f.IsWord := inferInstanceAs (Decidable (_ ∨ _))

/-- Written side by side, the first of the two takes in more than its lexeme, or another
    lexeme comes out. -/
def Clash (f g : Form) : Prop :=
  (f.IsWord ∧ (g.IsWord ∨ g.kind = .number)) ∨
    (f.kind = .number ∧ g.kind = .number) ∨
    (f.kind ∈ [.mark .bang, .mark .equal, .mark .less, .mark .greater] ∧ g.kind ∈ [.mark .equal, .mark .equalEqual]) ∨
    (f.kind = .mark .slash ∧ g.kind ∈ [.mark .slash, .mark .star])

/-- The three make one number with a fraction. -/
def Fuses (f g h : Form) : Prop :=
  f.kind = .number ∧ '.' ∉ f.lexeme ∧ g.kind = .mark .dot ∧ h.kind = .number

instance (f g : Form) : Decidable (f.Clash g) := inferInstanceAs (Decidable (_ ∨ _ ∨ _ ∨ _))

instance (f g h : Form) : Decidable (f.Fuses g h) := inferInstanceAs (Decidable (_ ∧ _ ∧ _ ∧ _))

end Form

def Conflict (forms : List Form) : Prop :=
  (∃ f g, [f, g] <:+: forms ∧ f.Clash g) ∨ ∃ f g h, [f, g, h] <:+: forms ∧ f.Fuses g h

/-- A conflict that `f` begins in front of the forms. -/
def Meets (f : Form) : List Form → Prop
  | [] => False
  | [g] => f.Clash g
  | g :: h :: _ => f.Clash g ∨ f.Fuses g h

theorem meets_iff {f : Form} {forms : List Form} :
    Meets f forms ↔ (∃ g, [g] <+: forms ∧ f.Clash g) ∨ ∃ g h, [g, h] <+: forms ∧ f.Fuses g h := by
  match forms with
  | [] => simp [Meets]
  | [g] => simp [Meets, List.cons_prefix_cons]
  | g :: h :: forms => simp [Meets, List.cons_prefix_cons, and_assoc]

theorem cons_infix_cons {f f' : Form} {forms part : List Form} :
    f' :: part <:+: f :: forms ↔ (f' = f ∧ part <+: forms) ∨ f' :: part <:+: forms := by
  rw [List.infix_cons_iff, List.cons_prefix_cons]

theorem conflict_cons {f : Form} {forms : List Form} : Conflict (f :: forms) ↔ Meets f forms ∨ Conflict forms := by
  simp only [Conflict, meets_iff, cons_infix_cons]
  constructor
  · rintro (⟨f', g, ⟨rfl, h⟩ | h, hc⟩ | ⟨f', g, k, ⟨rfl, h⟩ | h, hc⟩)
    · exact .inl (.inl ⟨g, h, hc⟩)
    · exact .inr (.inl ⟨f', g, h, hc⟩)
    · exact .inl (.inr ⟨g, k, h, hc⟩)
    · exact .inr (.inr ⟨f', g, k, h, hc⟩)
  · rintro ((⟨g, h, hc⟩ | ⟨g, k, h, hc⟩) | ⟨f', g, h, hc⟩ | ⟨f', g, k, h, hc⟩)
    · exact .inl ⟨f, g, .inl ⟨rfl, h⟩, hc⟩
    · exact .inr ⟨f, g, k, .inl ⟨rfl, h⟩, hc⟩
    · exact .inl ⟨f', g, .inr h, hc⟩
    · exact .inr ⟨f', g, k, .inr h, hc⟩

theorem conflict_nil : ¬ Conflict [] := by
  rintro (⟨f, g, h, -⟩ | ⟨f, g, k, h, -⟩) <;> simp at h

instance (f : Form) : (forms : List Form) → Decidable (Meets f forms)
  | [] => inferInstanceAs (Decidable False)
  | [g] => inferInstanceAs (Decidable (f.Clash g))
  | g :: h :: _ => inferInstanceAs (Decidable (f.Clash g ∨ f.Fuses g h))

instance decidableConflict : (forms : List Form) → Decidable (Conflict forms)
  | [] => .isFalse conflict_nil
  | _ :: forms =>
    have := decidableConflict forms
    decidable_of_iff _ conflict_cons.symm

/-! ## First characters -/

/-- What the first character of a form's lexeme tells about its kind. -/
structure Opens (f : Form) (c : Char) : Prop where
  word : isWordPart c ↔ f.IsWord ∨ f.kind = .number
  digit : c.isDigit ↔ f.kind = .number
  equal : c = '=' ↔ f.kind ∈ [.mark .equal, .mark .equalEqual]
  slash : c = '/' ↔ f.kind = .mark .slash
  star : c = '*' ↔ f.kind = .mark .star
  point : c = '.' ↔ f.kind = .mark .dot

theorem opens_of_wellFormed {f : Form} (hf : WellFormed f) : ∃ c t, f.lexeme = c :: t ∧ Opens f c := by
  cases hf with
  | mark m => cases m <;> exact ⟨_, _, rfl, by constructor <;> decide⟩
  | keyword k => cases k <;> exact ⟨_, _, rfl, by constructor <;> decide⟩
  | identifier hc _ _ =>
    refine ⟨_, _, rfl, ?_⟩
    have hne : ∀ d, ¬ isWordStart d → _ ≠ d := fun d hd he => hd (he ▸ hc)
    constructor
    · simp [isWordPart, hc, Form.IsWord]
    · simpa using fun hd => not_isWordStart_of_isDigit hd hc
    · simpa using hne '=' (by decide)
    · simpa using hne '/' (by decide)
    · simpa using hne '*' (by decide)
    · simpa using hne '.' (by decide)
  | @number whole fraction hne hw _ =>
    obtain ⟨c, t, rfl⟩ := List.exists_cons_of_ne_nil hne
    have hc := hw c List.mem_cons_self
    have hne : ∀ d, ¬ d.isDigit → c ≠ d := fun d hd he => hd (he ▸ hc)
    refine ⟨c, t ++ (Decimal.positional (c :: t) fraction).drop (t.length + 1), ?_, ?_⟩
    · cases fraction <;> simp [Decimal.positional]
    constructor
    · simp [isWordPart, hc]
    · simpa using hc
    · simpa using hne '=' (by decide)
    · simpa using hne '/' (by decide)
    · simpa using hne '*' (by decide)
    · simpa using hne '.' (by decide)
  | string _ =>
    refine ⟨_, _, rfl, ?_⟩
    have hword : ¬ isWordPart '"' := by decide
    constructor <;> simp [Form.IsWord, Kind.isKeyword, hword]

/-! ## What stands behind a lexeme -/

theorem head_lexemes_iff {P : Char → Prop} {K : Form → Prop} (hPK : ∀ g c, Opens g c → (P c ↔ K g)) {forms : List Form}
    (hf : ∀ g ∈ forms, WellFormed g) :
    (∃ c ∈ (forms.flatMap Form.lexeme).head?, P c) ↔ ∃ g ∈ forms.head?, K g := by
  cases forms with
  | nil => simp
  | cons g forms =>
    obtain ⟨c, t, hlex, ho⟩ := opens_of_wellFormed (hf g List.mem_cons_self)
    simp [hlex, hPK g c ho]

theorem lexeme_of_dot {f : Form} (hf : WellFormed f) (hk : f.kind = .mark .dot) : f.lexeme = ['.'] := by
  cases hf with
  | mark m => cases hk; rfl
  | _ => cases hk

theorem startsFraction_point {t : Text} : Segment.StartsFraction ('.' :: t) ↔ ∃ d ∈ t.head?, d.isDigit := by
  cases t <;> simp [Segment.StartsFraction]

/-- The text behind starts with a point and a digit only where a point and a number stand. -/
theorem startsFraction_lexemes {forms : List Form} (hf : ∀ f ∈ forms, WellFormed f) :
    Segment.StartsFraction (forms.flatMap Form.lexeme) ↔
      ∃ g h, [g, h] <+: forms ∧ g.kind = .mark .dot ∧ h.kind = .number := by
  cases forms with
  | nil => simp [Segment.StartsFraction]
  | cons g forms =>
    have hg := hf g List.mem_cons_self
    have hrest : ∀ h ∈ forms, WellFormed h := fun h hh => hf h (List.mem_cons_of_mem g hh)
    by_cases hk : g.kind = .mark .dot
    · rw [List.flatMap_cons, lexeme_of_dot hg hk, List.singleton_append, startsFraction_point,
        head_lexemes_iff (fun _ _ ho => ho.digit) hrest]
      cases forms <;> simp [List.cons_prefix_cons, hk, and_assoc]
    · obtain ⟨c, t, hlex, ho⟩ := opens_of_wellFormed hg
      have hc : c ≠ '.' := fun hc => hk (ho.point.mp hc)
      constructor
      · rintro ⟨d, u, h, -⟩
        simp [hlex, hc] at h
      · rintro ⟨g', h, hpre, hg', -⟩
        rw [List.cons_prefix_cons] at hpre
        exact absurd (hpre.1 ▸ hg') hk

theorem meets_iff_of_ne {f : Form} (hk : f.kind ≠ .number) {forms : List Form} :
    Meets f forms ↔ ∃ g ∈ forms.head?, f.Clash g := by
  match forms with
  | [] => simp [Meets]
  | [g] => simp [Meets]
  | g :: h :: forms => simp [Meets, Form.Fuses, hk]

theorem head_ne_iff {t : Text} {d : Char} : t.head? ≠ some d ↔ ¬ ∃ c ∈ t.head?, c = d := by simp

theorem stopsBefore_mark_iff {m : Mark} {forms : List Form} (hf : ∀ g ∈ forms, WellFormed g) :
    Segment.StopsBefore (forms.flatMap Form.lexeme) (.mark m) ↔ ¬ Meets ⟨.mark m, m.spelling, none⟩ forms := by
  have hequal := head_lexemes_iff (fun _ _ ho => ho.equal) hf
  have hslash := head_lexemes_iff (fun _ _ ho => ho.slash) hf
  have hstar := head_lexemes_iff (fun _ _ ho => ho.star) hf
  rw [meets_iff_of_ne (by simp)]
  cases m
  case bang | equal | less | greater =>
    simp only [Segment.StopsBefore, head_ne_iff, hequal, Form.Clash, Form.IsWord, Kind.isKeyword]
    simp
  case slash =>
    simp only [Segment.StopsBefore, head_ne_iff, hslash, hstar, Form.Clash, Form.IsWord, Kind.isKeyword]
    cases forms <;> simp
  all_goals simp [Segment.StopsBefore, Form.Clash, Form.IsWord, Kind.isKeyword]

theorem clash_of_isWord {f g : Form} (hf : f.IsWord) : f.Clash g ↔ g.IsWord ∨ g.kind = .number := by
  rcases hf with hk | hk
  · simp [Form.Clash, Form.IsWord, hk]
  · cases hkind : f.kind <;> simp [hkind, Kind.isKeyword] at hk
    simp [Form.Clash, Form.IsWord, hkind, Kind.isKeyword]

theorem isWord_ofWord (t : Text) : Form.IsWord ⟨.ofWord t, t, none⟩ := by
  unfold Form.IsWord Kind.ofWord
  cases Keyword.ofWord? t <;> simp [Kind.isKeyword]

theorem stopsBefore_word_iff {t : Text} {forms : List Form} (hf : ∀ g ∈ forms, WellFormed g) :
    Segment.StopsBefore (forms.flatMap Form.lexeme) (.word t) ↔ ¬ Meets ⟨.ofWord t, t, none⟩ forms := by
  have hword := head_lexemes_iff (fun _ _ ho => ho.word) hf
  have hne : Kind.ofWord t ≠ .number := by
    unfold Kind.ofWord
    split <;> simp
  rw [meets_iff_of_ne (f := ⟨.ofWord t, t, none⟩) hne]
  simp only [clash_of_isWord (isWord_ofWord t), ← hword]
  simp [Segment.StopsBefore]

theorem meets_number_iff {f : Form} (hk : f.kind = .number) {forms : List Form} :
    Meets f forms ↔ (∃ g ∈ forms.head?, g.kind = .number) ∨
      ('.' ∉ f.lexeme ∧ ∃ g h, [g, h] <+: forms ∧ g.kind = .mark .dot ∧ h.kind = .number) := by
  match forms with
  | [] => simp [Meets]
  | [g] => simp [Meets, Form.Clash, Form.IsWord, Kind.isKeyword, hk, List.cons_prefix_cons]
  | g :: h :: forms =>
    simp [Meets, Form.Clash, Form.Fuses, Form.IsWord, Kind.isKeyword, hk, List.cons_prefix_cons, and_assoc]

theorem stopsBefore_number_iff {whole fraction : Text} {literal : Option Literal}
    (hs : Segment.Shaped (.number whole fraction)) {forms : List Form} (hf : ∀ g ∈ forms, WellFormed g) :
    Segment.StopsBefore (forms.flatMap Form.lexeme) (.number whole fraction) ↔
      ¬ Meets ⟨.number, Decimal.positional whole fraction, literal⟩ forms := by
  have hdigit := head_lexemes_iff (fun _ _ ho => ho.digit) hf
  obtain ⟨-, hw, -⟩ := hs
  rw [meets_number_iff rfl, ← hdigit, ← startsFraction_lexemes hf]
  cases fraction with
  | nil =>
    have hpoint : '.' ∉ whole := fun h => absurd (hw '.' h) (by decide)
    simp [Segment.StopsBefore, Decimal.positional, hpoint]
  | cons d fraction => simp [Segment.StopsBefore, Decimal.positional]

theorem stopsBefore_iff {s : Segment} {f : Form} (hs : s.Shaped) (hform : s.form? = some f) {forms : List Form}
    (hf : ∀ g ∈ forms, WellFormed g) : s.StopsBefore (forms.flatMap Form.lexeme) ↔ ¬ Meets f forms := by
  cases s <;> cases hform
  case mark.refl m => exact stopsBefore_mark_iff hf
  case word.refl t => exact stopsBefore_word_iff hf
  case number.refl whole fraction => exact stopsBefore_number_iff hs hf
  case string.refl body =>
    simp [meets_iff_of_ne, Segment.StopsBefore, Form.Clash, Form.IsWord, Kind.isKeyword, Token.form]

/-! ## Whole lists -/

theorem flatMap_forms {segs : List Segment} (h : ∀ s ∈ segs, s.form?.isSome) :
    (segs.filterMap Segment.form?).flatMap Form.lexeme = segs.flatMap Segment.text := by
  induction segs with
  | nil => rfl
  | cons s segs ih =>
    obtain ⟨f, hform⟩ := Option.isSome_iff_exists.mp (h s List.mem_cons_self)
    simp [hform, ih fun t ht => h t (List.mem_cons_of_mem s ht), Segment.text_of_form? hform]

theorem wellFormed_of_mem_forms {segs : List Segment} (h : ∀ s ∈ segs, s.Shaped) :
    ∀ f ∈ segs.filterMap Segment.form?, WellFormed f := by
  intro f hf
  obtain ⟨s, hs, hform⟩ := List.mem_filterMap.mp hf
  exact wellFormed_iff.mpr ⟨s, h s hs, hform⟩

/-- Segments of tokens are the reading of their own text just where no conflict occurs. -/
theorem lexes_iff_no_conflict {segs : List Segment} (hs : ∀ s ∈ segs, s.Shaped) (ht : ∀ s ∈ segs, s.form?.isSome) :
    Lexes (segs.flatMap Segment.text) segs ↔ ¬ Conflict (segs.filterMap Segment.form?) := by
  induction segs with
  | nil => exact iff_of_true lexes_nil conflict_nil
  | cons s segs ih =>
    have hs' : ∀ t ∈ segs, t.Shaped := fun t h => hs t (List.mem_cons_of_mem s h)
    have ht' : ∀ t ∈ segs, t.form?.isSome := fun t h => ht t (List.mem_cons_of_mem s h)
    obtain ⟨f, hform⟩ := Option.isSome_iff_exists.mp (ht s List.mem_cons_self)
    have hstops := stopsBefore_iff (hs s List.mem_cons_self) hform (wellFormed_of_mem_forms hs')
    rw [flatMap_forms ht'] at hstops
    rw [List.filterMap_cons_some hform, conflict_cons, not_or, ← ih hs' ht', ← hstops, lexes_cons_iff]
    constructor
    · rintro ⟨rest, htext, hprescribed, hrest⟩
      obtain rfl := List.append_cancel_left htext
      exact ⟨hprescribed.2, hrest⟩
    · rintro ⟨hstop, hrest⟩
      exact ⟨_, rfl, ⟨hs s List.mem_cons_self, hstop⟩, hrest⟩

theorem exists_segments {forms : List Form} (h : ∀ f ∈ forms, WellFormed f) :
    ∃ segs : List Segment, (∀ s ∈ segs, s.Shaped) ∧ (∀ s ∈ segs, s.form?.isSome) ∧ segs.filterMap Segment.form? = forms := by
  induction forms with
  | nil => exact ⟨[], by simp, by simp, rfl⟩
  | cons f forms ih =>
    obtain ⟨segs, hs, ht, rfl⟩ := ih fun g hg => h g (List.mem_cons_of_mem f hg)
    obtain ⟨s, hshaped, hform⟩ := wellFormed_iff.mp (h f List.mem_cons_self)
    refine ⟨s :: segs, ?_, ?_, List.filterMap_cons_some hform⟩
    · exact List.forall_mem_cons.mpr ⟨hshaped, hs⟩
    · exact List.forall_mem_cons.mpr ⟨by simp [hform], ht⟩

/-! ## Nothing is left for a comment or an error -/

theorem length_lexemes_le (segs : List Segment) :
    ((segs.filterMap Segment.form?).flatMap Form.lexeme).length ≤ (segs.flatMap Segment.text).length := by
  induction segs with
  | nil => exact Nat.le_refl 0
  | cons s segs ih =>
    cases hform : s.form? with
    | none =>
      rw [List.filterMap_cons_none hform, List.flatMap_cons, List.length_append]
      exact Nat.le_add_left_of_le ih
    | some f =>
      rw [List.filterMap_cons_some hform, List.flatMap_cons, List.flatMap_cons, List.length_append, List.length_append,
        Segment.text_of_form? hform]
      exact Nat.add_le_add_left ih _

/-- If the lexemes are as long as the source, every segment is a token. -/
theorem isSome_of_length_lexemes {segs : List Segment} (hne : ∀ s ∈ segs, s.text ≠ [])
    (h : (segs.flatMap Segment.text).length ≤ ((segs.filterMap Segment.form?).flatMap Form.lexeme).length) :
    ∀ s ∈ segs, s.form?.isSome := by
  induction segs with
  | nil => simp
  | cons s segs ih =>
    have hpos := List.length_pos_iff.mpr (hne s List.mem_cons_self)
    have hrest := length_lexemes_le segs
    cases hform : s.form? with
    | none =>
      rw [List.filterMap_cons_none hform, List.flatMap_cons, List.length_append] at h
      omega
    | some f =>
      rw [List.filterMap_cons_some hform, List.flatMap_cons, List.flatMap_cons, List.length_append, List.length_append,
        Segment.text_of_form? hform] at h
      refine List.forall_mem_cons.mpr ⟨by simp [hform], ih (fun t ht => hne t (List.mem_cons_of_mem s ht)) ?_⟩
      omega

theorem forms_scan (source : Text) :
    (scan source).tokens.map Token.form = (segments source).filterMap Segment.form? ++ [.eof] := by
  rw [scan_eq, List.map_append, forms_tokensFrom]
  rfl

/-- Well-formed tokens written with nothing between them are scanned back as they are just
    where no two or three neighbours conflict, and then without an error. -/
theorem scan_adjacent_iff {forms : List Form} (h : ∀ f ∈ forms, WellFormed f) :
    ((scan (forms.flatMap Form.lexeme)).tokens.map Token.form = forms ++ [.eof] ↔ ¬ Conflict forms) ∧
      (¬ Conflict forms → (scan (forms.flatMap Form.lexeme)).errors = []) := by
  obtain ⟨segs, hs, ht, rfl⟩ := exists_segments h
  have hread : ¬ Conflict (segs.filterMap Segment.form?) → segments (segs.flatMap Segment.text) = segs :=
    fun hc => (lexes_iff.mp ((lexes_iff_no_conflict hs ht).mpr hc)).symm
  rw [flatMap_forms ht, forms_scan]
  refine ⟨⟨?_, fun hc => by rw [hread hc]⟩, ?_⟩
  · intro hforms
    have hsame := List.append_cancel_right hforms
    have htokens : ∀ s ∈ segments (segs.flatMap Segment.text), s.form?.isSome := by
      refine isSome_of_length_lexemes (fun s hs => text_ne_nil_of_mem_segments hs) ?_
      exact Nat.le_of_eq (by rw [hsame, flatMap_forms ht, flatten_segments])
    rw [← hsame, ← lexes_iff_no_conflict (fun s hs => shaped_of_mem_segments hs) htokens, flatten_segments]
    exact lexes_segments _
  · intro hc
    rw [scan_eq, hread hc]
    refine errorsFrom_eq_nil ?_ 1
    intro s hmem
    obtain ⟨f, hform⟩ := Option.isSome_iff_exists.mp (ht s hmem)
    exact Segment.error?_of_form? hform

def numberForm (whole fraction : Text) : Form :=
  ⟨.number, Decimal.positional whole fraction, some (.number (.positive (Decimal.ofDigits whole fraction).nearest))⟩

/-- A number, a point and a number: a second point cannot join a number, a first one can. -/
def pointBetween (fraction : Text) : List Form :=
  [numberForm ['1'] fraction, ⟨.mark .dot, ['.'], none⟩, numberForm ['5'] []]

theorem wellFormed_pointBetween (fraction : Text) (h : ∀ d ∈ fraction, d.isDigit) :
    ∀ f ∈ pointBetween fraction, WellFormed f := by
  intro f hf
  simp only [pointBetween, List.mem_cons, List.not_mem_nil, or_false] at hf
  rcases hf with rfl | rfl | rfl
  · exact .number (by decide) (List.all_eq_true.mp (by decide)) h
  · exact .mark .dot
  · exact .number (by decide) (List.all_eq_true.mp (by decide)) (List.all_eq_true.mp (by decide))

theorem scan_pointBetween :
    (scan ['1', '.', '2', '.', '5']).tokens.map Token.form = pointBetween ['2'] ++ [.eof] ∧
      (scan ['1', '.', '2', '.', '5']).errors = [] ∧
      (scan ['1', '.', '5']).tokens.map Token.form ≠ pointBetween [] ++ [.eof] := by
  have hfree := scan_adjacent_iff (wellFormed_pointBetween ['2'] (List.all_eq_true.mp (by decide)))
  have hfused := scan_adjacent_iff (wellFormed_pointBetween [] (by simp))
  exact ⟨hfree.1.mpr (by decide), hfree.2 (by decide), fun h => hfused.1.mp h (by decide)⟩

end LoxFront
