/-
  LoxFront.Segment — the source cut into its lexical segments: tokens, blanks, comments
  and errors, each with all of its text.

  `Segment.next` takes the first character and gives the segment that starts with it:
  words, numbers and marks as long as they can be, strings and comments up to the first
  end. Every source has a segment in front, so cutting never fails; the segments' texts
  put together are the source again (`flatten_segments`), and none is empty
  (`text_ne_nil_of_mem_segments`).
-/

import LoxFront.Decimal
import LoxFront.Text.Class
import LoxFront.Token.Kind

namespace LoxFront

/-! ## Segments -/

/-- A string's and a comment's parts are what stands between its delimiters. -/
inductive Segment
  | mark (mark : Mark)
  | word (text : Text)
  /-- The digits on each side of the point; no point without digits behind it. -/
  | number (whole fraction : Text)
  | string (body : Text)
  /-- A quotation mark with no other behind it: the rest of the source. -/
  | openString (body : Text)
  | lineComment (body : Text)
  | blockComment (body : Text)
  /-- A block comment that nothing closes: the rest of the source. -/
  | openComment (body : Text)
  | blank (c : Char)
  | unexpected (c : Char)
  deriving DecidableEq

namespace Segment

/-- The stretch of source that the segment is. -/
def text : Segment → Text
  | .mark m => m.spelling
  | .word t => t
  | .number whole fraction => Decimal.positional whole fraction
  | .string body => '"' :: body ++ ['"']
  | .openString body => '"' :: body
  | .lineComment body => '/' :: '/' :: body
  | .blockComment body => '/' :: '*' :: body ++ ['*', '/']
  | .openComment body => '/' :: '*' :: body
  | .blank c => [c]
  | .unexpected c => [c]

/-! ## The first segment -/

/-- A point belongs to the number only with a digit behind it. -/
def nextNumber (whole : Text) : Text → Segment × Text
  | '.' :: d :: rest =>
    if d.isDigit then (.number whole (d :: rest.takeWhile Char.isDigit), rest.dropWhile Char.isDigit)
    else (.number whole [], '.' :: d :: rest)
  | rest => (.number whole [], rest)

theorem nextNumber_eq (whole rest : Text) :
    ∃ fraction, (nextNumber whole rest).1 = .number whole fraction ∧ ∀ d ∈ fraction, d.isDigit := by
  unfold nextNumber
  split
  · split
    · next d rest hd =>
      refine ⟨_, rfl, ?_⟩
      intro e he
      rcases List.mem_cons.mp he with rfl | he
      · exact hd
      · exact mem_takeWhile he
    · exact ⟨[], rfl, by simp⟩
  · exact ⟨[], rfl, by simp⟩

/-- Behind a quotation mark. -/
def nextString (rest : Text) : Segment × Text :=
  match rest.dropWhile (· ≠ '"') with
  | [] => (.openString rest, [])
  | _ :: after => (.string (rest.takeWhile (· ≠ '"')), after)

/-- The text before the first star and slash, and the text behind them. -/
def closeComment? : Text → Option (Text × Text)
  | [] => none
  | c :: rest =>
    match c, rest with
    | '*', '/' :: after => some ([], after)
    | _, _ => (closeComment? rest).map fun p => (c :: p.1, p.2)

theorem closeComment?_cons {c : Char} {rest : Text} (h : ¬ (c = '*' ∧ rest.head? = some '/')) :
    closeComment? (c :: rest) = (closeComment? rest).map fun p => (c :: p.1, p.2) := by
  rw [closeComment?]
  rintro after rfl rfl
  exact h ⟨rfl, rfl⟩

/-- Behind a slash. -/
def nextSlash : Text → Segment × Text
  | '/' :: rest => (.lineComment (rest.takeWhile (· ≠ '\n')), rest.dropWhile (· ≠ '\n'))
  | '*' :: rest =>
    match closeComment? rest with
    | some (body, after) => (.blockComment body, after)
    | none => (.openComment rest, [])
  | rest => (.mark .slash, rest)

/-- Behind the first character of a mark. -/
def nextMark (m : Mark) : Text → Segment × Text
  | '=' :: rest =>
    match m.withEqual? with
    | some n => (.mark n, rest)
    | none => (.mark m, '=' :: rest)
  | rest => (.mark m, rest)

/-- The segment that starts with `c`, and the source behind it. -/
def next (c : Char) (rest : Text) : Segment × Text :=
  if isBlank c then (.blank c, rest)
  else if isWordStart c then (.word (c :: rest.takeWhile isWordPart), rest.dropWhile isWordPart)
  else if c.isDigit then nextNumber (c :: rest.takeWhile Char.isDigit) (rest.dropWhile Char.isDigit)
  else if c = '"' then nextString rest
  else if c = '/' then nextSlash rest
  else match Mark.ofChar? c with
    | some m => nextMark m rest
    | none => (.unexpected c, rest)

/-- A point with a digit behind it. -/
def StartsFraction (rest : Text) : Prop := ∃ d u, rest = '.' :: d :: u ∧ d.isDigit

theorem nextNumber_of_not {rest : Text} (h : ¬ StartsFraction rest) (whole : Text) :
    nextNumber whole rest = (.number whole [], rest) := by
  unfold nextNumber
  split
  · next d u =>
    have hd : ¬ d.isDigit := fun hd => h ⟨d, u, rfl, hd⟩
    rw [if_neg hd]
  · rfl

theorem nextMark_of_ne {m : Mark} {rest : Text} (h : rest.head? ≠ some '=') : nextMark m rest = (.mark m, rest) := by
  unfold nextMark
  split
  · exact absurd rfl h
  · rfl

theorem nextSlash_of_ne {rest : Text} (hline : rest.head? ≠ some '/') (hblock : rest.head? ≠ some '*') :
    nextSlash rest = (.mark .slash, rest) := by
  unfold nextSlash
  split
  · exact absurd rfl hline
  · exact absurd rfl hblock
  · rfl

theorem nextMark_of_none {m : Mark} (h : m.withEqual? = none) (rest : Text) : nextMark m rest = (.mark m, rest) := by
  unfold nextMark
  simp only [h]
  split <;> rfl

/-! ## By the first character -/

/-- No other segment starts so. -/
def Unexpected (c : Char) : Prop :=
  ¬ isBlank c ∧ ¬ isWordStart c ∧ ¬ c.isDigit ∧ c ≠ '"' ∧ ∀ m : Mark, m.spelling ≠ [c]

theorem next_of_isBlank {c : Char} (h : isBlank c) (rest : Text) : next c rest = (.blank c, rest) := by
  simp [next, h]

theorem next_of_isWordStart {c : Char} (h : isWordStart c) (rest : Text) :
    next c rest = (.word (c :: rest.takeWhile isWordPart), rest.dropWhile isWordPart) := by
  have hblank : ¬ isBlank c := fun hb => not_isWordPart_of_isBlank hb (isWordPart_of_isWordStart h)
  simp [next, hblank, h]

theorem next_of_isDigit {c : Char} (h : c.isDigit) (rest : Text) :
    next c rest = nextNumber (c :: rest.takeWhile Char.isDigit) (rest.dropWhile Char.isDigit) := by
  have hblank : ¬ isBlank c := fun hb => not_isWordPart_of_isBlank hb (isWordPart_of_isDigit h)
  simp [next, hblank, not_isWordStart_of_isDigit h, h]

theorem next_quote (rest : Text) : next '"' rest = nextString rest := rfl

theorem next_slash (rest : Text) : next '/' rest = nextSlash rest := rfl

theorem next_of_mark {m : Mark} {c : Char} (hm : m.spelling = [c]) (hslash : m ≠ .slash) (rest : Text) :
    next c rest = nextMark m rest := by
  cases m
  case slash => exact absurd rfl hslash
  all_goals simp only [Mark.spelling, List.cons.injEq, reduceCtorEq, and_true, and_false] at hm
  all_goals subst hm; rfl

theorem next_of_unexpected {c : Char} (h : Unexpected c) (rest : Text) : next c rest = (.unexpected c, rest) := by
  obtain ⟨hblank, hword, hdigit, hquote, hmark⟩ := h
  have hslash : c ≠ '/' := fun hc => hmark .slash (by simp [Mark.spelling, hc])
  simp [next, hblank, hword, hdigit, hquote, hslash, Mark.ofChar?_eq_none_iff.mpr hmark]

/-! ## No text is lost -/

theorem nextNumber_text (whole rest : Text) : (nextNumber whole rest).1.text ++ (nextNumber whole rest).2 = whole ++ rest := by
  unfold nextNumber
  split
  · split <;> simp [text, Decimal.positional]
  · simp [text, Decimal.positional]

theorem eq_of_dropWhile_ne {c d : Char} {t u : Text} (h : t.dropWhile (· ≠ c) = d :: u) : d = c := by
  have hd : d ∈ (t.dropWhile (· ≠ c)).head? := by rw [h]; rfl
  simpa using not_of_head_dropWhile hd

theorem nextString_text (rest : Text) : (nextString rest).1.text ++ (nextString rest).2 = '"' :: rest := by
  have hsplit := List.takeWhile_append_dropWhile (p := (· ≠ '"')) (l := rest)
  unfold nextString
  split
  · simp [text]
  · next c after h =>
    obtain rfl := eq_of_dropWhile_ne h
    conv => rhs; rw [← hsplit, h]
    simp [text]

theorem closeComment?_text {rest body after : Text} (h : closeComment? rest = some (body, after)) :
    body ++ '*' :: '/' :: after = rest := by
  fun_induction closeComment? rest generalizing body after with
  | case1 => cases h
  | case2 => cases h; rfl
  | case3 c rest _ ih =>
    obtain ⟨⟨b, a⟩, hba, heq⟩ := Option.map_eq_some_iff.1 h
    cases heq
    simp [ih hba]

theorem nextSlash_text (rest : Text) : (nextSlash rest).1.text ++ (nextSlash rest).2 = '/' :: rest := by
  unfold nextSlash
  split
  · simp [text]
  · split
    · next h => simp [text, closeComment?_text h]
    · simp [text]
  · simp [text, Mark.spelling]

theorem nextMark_text (m : Mark) (rest : Text) : (nextMark m rest).1.text ++ (nextMark m rest).2 = m.spelling ++ rest := by
  unfold nextMark
  split
  · split
    · next h => simp [text, Mark.spelling_of_withEqual? h]
    · simp [text]
  · simp [text]

theorem next_text (c : Char) (rest : Text) : (next c rest).1.text ++ (next c rest).2 = c :: rest := by
  unfold next
  split
  · simp [text]
  split
  · simp [text]
  split
  · simp [nextNumber_text]
  split
  · next h => subst h; exact nextString_text rest
  split
  · next h => subst h; exact nextSlash_text rest
  split
  · next h => simp [nextMark_text, Mark.spelling_of_ofChar? h]
  · simp [text]

theorem next_text_ne_nil (c : Char) (rest : Text) : (next c rest).1.text ≠ [] := by
  unfold next nextNumber nextString nextSlash nextMark
  split
  · simp [text]
  split
  · simp [text]
  split
  · split
    · split <;> simp [text, Decimal.positional]
    · simp [text, Decimal.positional]
  split
  · split <;> simp [text]
  split
  · split
    · simp [text]
    · split <;> simp [text]
    · simp [text, Mark.spelling]
  split
  · split
    · split <;> simp [text, Mark.spelling_ne_nil]
    · simp [text, Mark.spelling_ne_nil]
  · simp [text]

theorem next_length (c : Char) (rest : Text) : (next c rest).2.length ≤ rest.length := by
  have h := congrArg List.length (next_text c rest)
  have hpos := List.length_pos_iff.mpr (next_text_ne_nil c rest)
  simp only [List.length_append, List.length_cons] at h
  omega

end Segment

/-! ## All segments -/

def segments : Text → List Segment
  | [] => []
  | c :: rest => (Segment.next c rest).1 :: segments (Segment.next c rest).2
termination_by source => source.length
decreasing_by exact Nat.lt_succ_of_le (Segment.next_length c rest)

theorem flatten_segments (source : Text) : (segments source).flatMap Segment.text = source := by
  fun_induction segments source with
  | case1 => rfl
  | case2 c rest ih => rw [List.flatMap_cons, ih, Segment.next_text]

theorem text_ne_nil_of_mem_segments {source : Text} {s : Segment} (h : s ∈ segments source) : s.text ≠ [] := by
  fun_induction segments source with
  | case1 => cases h
  | case2 c rest ih =>
    rcases List.mem_cons.mp h with rfl | h
    · exact Segment.next_text_ne_nil c rest
    · exact ih h

end LoxFront
