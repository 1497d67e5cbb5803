/-
  LoxFront.Proofs.Bounds — a pass stays inside its source and comes on with every step.

  A read or a slice outside the source is `none`, and a step that meets one is `none` too. So
  it has to be shown that steps have results. Whatever lets a loop advance is false of NUL,
  which is seen behind the end, or asks for the end itself (`guarded`). So every loop ends
  inside the source, wherever inside it begins (`onward_of_mem_loops`), and so does every
  step, at least one character further on (`advances_step`).

  A state of the pass is one that steps lead to from the front of the source (`Reached`).
  What holds of all of them is kept by a step (`sound_behind`): a step for each character
  in front at the most, one token or error for each step, one line for each character.
-/

import LoxFront.Proofs.Lines

namespace LoxFront

namespace Cursor

/-! ## Reads -/

/-- What keeps the reads at a cursor inside its source. -/
structure Guarded (c : Cursor) : Prop where
  /-- There is no character at the end or behind it. -/
  advance : c.advance = none ↔ c.source.size ≤ c.current
  slice : ∀ i j, c.slice i j = none ↔ ¬ (i ≤ j ∧ j ≤ c.source.size)
  accept : ∀ expected, c.accept expected ≠ none
  /-- The conditions to advance: the source goes on, or the next character is of a class. -/
  not_atEnd : c.atEnd = false → c.current < c.source.size
  peek : ∀ p : Char → Bool, p '\x00' = false → p c.peek → c.current < c.source.size
  /-- The condition to go past the end of a block comment. -/
  closing : c.peek = '*' → c.peekNext = '/' → c.current + 2 ≤ c.source.size

theorem getElem?_eq_of_getD {source : Array Char} {i : Nat} {d : Char} (hd : d ≠ '\x00') (h : source[i]?.getD '\x00' = d) :
    i < source.size := by
  by_cases hi : i < source.size
  · exact hi
  · rw [Array.getElem?_eq_none (Nat.le_of_not_lt hi)] at h
    exact absurd h.symm hd

theorem guarded (c : Cursor) : c.Guarded where
  advance := by simp [Cursor.advance]
  slice := by
    intro i j
    simp [Cursor.slice]
  accept := by
    intro expected
    simp [accept_eq]
  not_atEnd := by
    intro h
    simpa [atEnd] using h
  peek := by
    intro p hnul hp
    refine getElem?_eq_of_getD (d := c.peek) ?_ rfl
    intro he
    rw [he, hnul] at hp
    cases hp
  closing := by
    intro _ hnext
    have hi : c.current + 1 < c.source.size := getElem?_eq_of_getD (by decide) hnext
    omega

/-! ## Loops -/

/-- In the same lexeme, not past the end, and not more lines than characters further on. -/
structure Onward (c d : Cursor) : Prop where
  source : d.source = c.source
  start : d.start = c.start
  current : c.current ≤ d.current
  inside : d.current ≤ d.source.size
  line : d.line ≤ c.line + (d.current - c.current)

theorem onward_past {c : Cursor} {t u : Text} (h : c.rest = t ++ u) (hc : c.current ≤ c.source.size) :
    c.Onward (c.past t) := by
  have hlength : t.length + u.length = c.source.size - c.current := by
    rw [← List.length_append, ← h]
    simp [rest]
  have hbreaks : t.lineBreaks ≤ t.length := List.count_le_length
  refine ⟨rfl, rfl, ?_, ?_, ?_⟩ <;> simp only [past] <;> omega

/-- The six loops. -/
def loops : List (Cursor → Option Cursor) :=
  [skipWhile Char.isDigit, skipWhile isWordPart, skipFraction, skipString, skipLineComment, skipBlockComment]

theorem commentTail_prefix (t : Text) : commentTail t <+: t := by
  unfold commentTail
  cases h : Segment.closeComment? t with
  | none => exact List.prefix_rfl
  | some p =>
    obtain ⟨body, after⟩ := p
    exact ⟨after, by simp [← Segment.closeComment?_text h]⟩

theorem skipFraction_prefix (c : Cursor) : ∃ tail, tail <+: c.rest ∧ c.skipFraction = some (c.past tail) := by
  obtain ⟨tail, htail, hskip⟩ := skipFraction_eq [] c
  refine ⟨tail, ⟨(Segment.nextNumber [] c.rest).2, ?_⟩, hskip⟩
  have htext := Segment.nextNumber_text [] c.rest
  rwa [htail] at htext

/-- Every loop goes past some of the text in front. -/
theorem past_of_mem_loops {loop : Cursor → Option Cursor} (h : loop ∈ loops) (c : Cursor) :
    ∃ t, t <+: c.rest ∧ loop c = some (c.past t) := by
  simp only [loops, List.mem_cons, List.not_mem_nil, or_false] at h
  rcases h with rfl | rfl | rfl | rfl | rfl | rfl
  · exact ⟨_, List.takeWhile_prefix _, skipWhile_eq (by decide) (by decide) c⟩
  · exact ⟨_, List.takeWhile_prefix _, skipWhile_eq (by decide) (by decide) c⟩
  · exact c.skipFraction_prefix
  · exact ⟨_, List.takeWhile_prefix _, c.skipString_eq⟩
  · exact ⟨_, List.takeWhile_prefix _, c.skipLineComment_eq⟩
  · exact ⟨_, commentTail_prefix _, c.skipBlockComment_eq⟩

theorem onward_of_mem_loops {loop : Cursor → Option Cursor} (h : loop ∈ loops) {c : Cursor}
    (hc : c.current ≤ c.source.size) : ∃ d, loop c = some d ∧ c.Onward d := by
  obtain ⟨t, ⟨u, hu⟩, hloop⟩ := past_of_mem_loops h c
  exact ⟨c.past t, hloop, onward_past hu.symm hc⟩

/-! ## Steps -/

/-- What a step from `c` to `next` brings. -/
structure Advances (c : Cursor) (reading : Reading) (next : Cursor) : Prop where
  onward : c.Onward next
  progress : c.current < next.current
  lexeme : ∀ t, reading = .ok (some t) → next.slice next.start next.current = some t.lexeme
  line : ∀ t, reading = .ok (some t) → t.line = next.line
  /-- Between the quotation marks, also where there is nothing. -/
  string : ∀ t, reading = .ok (some t) → t.kind = .string → next.start + 1 ≤ next.current - 1 ∧
    ∃ body, next.slice (next.start + 1) (next.current - 1) = some body ∧ t.literal = some (.text body)
  /-- A number's lexeme is digits with at the most one point among them, so it has a value. -/
  number : ∀ t, reading = .ok (some t) → t.kind = .number →
    ∃ whole fraction, whole ≠ [] ∧ (∀ d ∈ whole, d.isDigit) ∧ (∀ d ∈ fraction, d.isDigit) ∧
      t.lexeme = Decimal.positional whole fraction ∧
      ∃ value, Decimal.ofText? t.lexeme = some value ∧ t.literal = some (.number (.positive value.nearest))

theorem token?_of_reading {s : Segment} {line : Nat} {t : Token} (h : s.reading line = .ok (some t)) : s.token? line = some t := by
  unfold Segment.reading at h
  split at h
  · cases h
  · exact Except.ok.inj h

/-- The two slices of a string: with its quotation marks and without them. -/
theorem slice_string {c : Cursor} (hs : c.start = c.current) {body rest : Text} (h : c.rest = '"' :: body ++ ['"'] ++ rest) :
    (c.past ('"' :: body ++ ['"'])).start + 1 ≤ (c.past ('"' :: body ++ ['"'])).current - 1 ∧
      (c.past ('"' :: body ++ ['"'])).slice ((c.past ('"' :: body ++ ['"'])).start + 1)
        ((c.past ('"' :: body ++ ['"'])).current - 1) = some body := by
  have hbody := slice_eq (c := c) (a := ['"']) (b := body) (u := '"' :: rest) (by simp [h]) (List.cons_ne_nil _ _)
  have hstart : (c.past ('"' :: body ++ ['"'])).start + 1 = c.current + ['"'].length := by simp [past, hs]
  have hstop : (c.past ('"' :: body ++ ['"'])).current - 1 = c.current + ['"'].length + body.length := by
    simp [past]
    omega
  rw [hstart, hstop]
  exact ⟨Nat.le_add_right _ _, hbody⟩

theorem advances_step {c : Cursor} (hs : c.start = c.current) (hend : c.atEnd = false) :
    ∃ reading next, c.step = some (reading, next) ∧ c.Advances reading next := by
  have hinside : c.current < c.source.size := c.guarded.not_atEnd hend
  obtain ⟨d, t, hrest⟩ : ∃ d t, c.rest = d :: t := by
    refine List.exists_cons_of_ne_nil ?_
    intro hnil
    rw [atEnd_of_nil hnil] at hend
    cases hend
  obtain ⟨s, hseg⟩ : ∃ s, s = (Segment.next d t).1 := ⟨_, rfl⟩
  have hshaped : s.Shaped := hseg ▸ (Segment.next_prescribed d t).1
  have hsplit : c.rest = s.text ++ (Segment.next d t).2 := by rw [hrest, hseg, Segment.next_text]
  have hlexeme := lexeme_past hs hsplit hshaped.text_ne_nil
  have hpos := List.length_pos_iff.mpr hshaped.text_ne_nil
  refine ⟨_, _, hseg ▸ step_eq hs hrest, onward_past hsplit (Nat.le_of_lt hinside), ?_, ?_, ?_, ?_, ?_⟩
  · simp only [past]
    omega
  · intro t ht
    rw [Segment.lexeme_of_token? (token?_of_reading ht)]
    exact hlexeme
  · intro t ht
    exact Segment.line_of_token? (token?_of_reading ht)
  · intro t ht hk
    obtain ⟨body, rfl⟩ := Segment.string_of_token? (token?_of_reading ht) hk
    obtain ⟨hle, hbody⟩ := slice_string hs hsplit
    cases ht
    exact ⟨hle, body, hbody, rfl⟩
  · intro t ht hk
    obtain ⟨whole, fraction, rfl⟩ := Segment.number_of_token? (token?_of_reading ht) hk
    obtain ⟨hne, hw, hf⟩ := hshaped
    cases ht
    exact ⟨whole, fraction, hne, hw, hf, rfl, _, Decimal.ofText?_positional hne hw hf, rfl⟩

end Cursor

/-! ## States of a pass -/

/-- Where a pass stands: how many steps it has made and what came of them. -/
structure Pass where
  steps : Nat
  cursor : Cursor
  tokens : List Token
  errors : List LexicalError

namespace Pass

def start (source : Text) : Pass := ⟨0, .ofText source, [], []⟩

/-- The pass one step later. -/
def behind (p : Pass) (reading : Reading) (next : Cursor) : Pass :=
  match reading with
  | .ok t => ⟨p.steps + 1, next, p.tokens ++ t.toList, p.errors⟩
  | .error e => ⟨p.steps + 1, next, p.tokens, p.errors ++ [e]⟩

/-- All tokens and errors so far. -/
def found (p : Pass) : Nat := p.tokens.length + p.errors.length

variable (p : Pass) (reading : Reading) (next : Cursor)

@[simp] theorem cursor_behind : (p.behind reading next).cursor = next := by cases reading <;> rfl

@[simp] theorem steps_behind : (p.behind reading next).steps = p.steps + 1 := by cases reading <;> rfl

theorem found_behind : (p.behind reading next).found ≤ p.found + 1 := by
  cases reading with
  | error e =>
    simp only [found, behind, List.length_append, List.length_singleton]
    omega
  | ok t =>
    have ht : t.toList.length ≤ 1 := by cases t <;> simp
    simp only [found, behind, List.length_append]
    omega

end Pass

/-- From the front of the source the pass comes to where it stands. -/
inductive Reached (source : Text) : Pass → Prop
  | start : Reached source (.start source)
  | step {p : Pass} {reading : Reading} {next : Cursor} : Reached source p → p.cursor.atEnd = false →
      p.cursor.begun.step = some (reading, next) → Reached source (p.behind reading next)

/-- What holds of every state of a pass. -/
structure Sound (source : Text) (p : Pass) : Prop where
  source_eq : p.cursor.source = source.toArray
  start_le : p.cursor.start ≤ p.cursor.current
  current_le : p.cursor.current ≤ source.length
  line_le : p.cursor.line ≤ p.cursor.current + 1
  steps_le : p.steps ≤ p.cursor.current
  found_le : p.found ≤ p.steps

variable {source : Text} {p : Pass}

theorem sound_start (source : Text) : Sound source (.start source) :=
  ⟨rfl, Nat.le_refl 0, Nat.zero_le _, Nat.le_refl 1, Nat.le_refl 0, Nat.le_refl 0⟩

theorem sound_behind (h : Sound source p) {reading : Reading} {next : Cursor} (hnext : p.cursor.begun.Advances reading next) :
    Sound source (p.behind reading next) := by
  have hsource : next.source = source.toArray := hnext.onward.source.trans h.source_eq
  have hinside := hnext.onward.inside
  rw [hsource, List.size_toArray] at hinside
  have hstart : next.start = p.cursor.current := hnext.onward.start
  have hprogress : p.cursor.current < next.current := hnext.progress
  have hline : next.line ≤ p.cursor.line + (next.current - p.cursor.current) := hnext.onward.line
  have hlines := h.line_le
  have hsteps := h.steps_le
  have hfound := h.found_le
  have hmore := p.found_behind reading next
  constructor
  · rw [p.cursor_behind]
    exact hsource
  all_goals simp only [p.cursor_behind, p.steps_behind]
  all_goals omega

theorem advances_of_not_atEnd (hend : p.cursor.atEnd = false) :
    ∃ reading next, p.cursor.begun.step = some (reading, next) ∧ p.cursor.begun.Advances reading next :=
  Cursor.advances_step rfl hend

theorem sound_of_reached (h : Reached source p) : Sound source p := by
  induction h with
  | start => exact sound_start source
  | step _ hend hstep ih =>
    obtain ⟨reading, next, hstep', hnext⟩ := advances_of_not_atEnd hend
    rw [hstep] at hstep'
    cases hstep'
    exact sound_behind ih hnext

/-- The pass goes on from every state that it reaches. -/
theorem run_of_reached {ρ : Type} (report : ρ → LexicalError → ρ) (reporter : ρ) (h : Reached source p) :
    Cursor.run report (.ofText source) #[] reporter =
      Cursor.run report p.cursor p.tokens.toArray (p.errors.foldl report reporter) := by
  induction h with
  | start => rfl
  | @step p reading next _ hend hstep ih =>
    rw [ih]
    match reading with
    | .ok none =>
      rw [Cursor.run_of_nothing hend hstep]
      simp [Pass.behind]
    | .ok (some t) =>
      rw [Cursor.run_of_token hend hstep]
      simp [Pass.behind]
    | .error e =>
      rw [Cursor.run_of_error hend hstep]
      simp [Pass.behind]

theorem exists_end_of_reached (h : Reached source p) : ∃ q, Reached source q ∧ q.cursor.atEnd = true := by
  -- on what is left to read, as every step leaves less
  induction hleft : p.cursor.left using Nat.strongRecOn generalizing p with
  | ind n ih =>
    cases hend : p.cursor.atEnd with
    | true => exact ⟨p, h, hend⟩
    | false =>
      obtain ⟨reading, next, hstep, hnext⟩ := advances_of_not_atEnd hend
      have hsource : next.source = p.cursor.source := hnext.onward.source
      have hprogress : p.cursor.current < next.current := hnext.progress
      have hinside := hnext.onward.inside
      refine ih _ ?_ (h.step hend hstep) rfl
      rw [← hleft, p.cursor_behind, Cursor.left, Cursor.left, hsource]
      rw [hsource] at hinside
      omega

theorem scan_of_reached (h : Reached source p) (hend : p.cursor.atEnd = true) :
    scan source = ⟨p.tokens ++ [.eof p.cursor.line], p.errors⟩ := by
  have hrun := run_of_reached Array.push #[] h
  rw [Cursor.run.eq_def Array.push p.cursor, if_pos hend] at hrun
  simp [scan, scanWith, hrun]

/-- No scan looks outside its source, and each comes to an end.

    Where a read fails is known, and what lets a loop advance keeps it from there; wherever
    inside the source a loop begins it ends inside, without a failure. In every state that
    the pass reaches, lexeme and place are inside the source, there were no more steps than
    characters and no more tokens and errors than steps, and the lines are bounded by the
    characters. Before the end a step has a result at least one character further on; its
    token is cut out of the source, and if it is a number its lexeme has a value. So the end
    is reached after at the most as many steps as there are characters. -/
theorem pass_stays_inside (source : Text) :
    (∀ c : Cursor, c.Guarded) ∧
      (∀ loop ∈ Cursor.loops, ∀ c : Cursor, c.current ≤ c.source.size → ∃ d, loop c = some d ∧ c.Onward d) ∧
      (∀ p, Reached source p → Sound source p ∧
        (p.cursor.atEnd = false →
          ∃ reading next, p.cursor.begun.step = some (reading, next) ∧ p.cursor.begun.Advances reading next)) ∧
      ∃ p, Reached source p ∧ p.cursor.atEnd = true ∧ scan source = ⟨p.tokens ++ [.eof p.cursor.line], p.errors⟩ ∧
        p.steps ≤ source.length ∧ p.found ≤ source.length ∧ p.cursor.line ≤ source.length + 1 := by
  refine ⟨Cursor.guarded, fun loop hloop c hc => Cursor.onward_of_mem_loops hloop hc, ?_, ?_⟩
  · intro p hp
    exact ⟨sound_of_reached hp, advances_of_not_atEnd⟩
  · obtain ⟨p, hp, hend⟩ := exists_end_of_reached (p := .start source) .start
    have hsound := sound_of_reached hp
    have hcurrent := hsound.current_le
    have hline := hsound.line_le
    have hsteps := hsound.steps_le
    have hfound := hsound.found_le
    exact ⟨p, hp, hend, scan_of_reached hp hend, by omega, by omega, by omega⟩

end LoxFront
