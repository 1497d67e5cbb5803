/-
  LoxFront.Proofs.LineByLine — a source scanned whole and scanned line by line.

  No lexeme looks through a line feed, and only a string or a block comment that nothing
  has closed goes on behind one. So a scan falls apart at a line feed, with the later
  tokens and errors on lines that are moved on (`segments_lineFeed`). A session reads the
  lines of its input one by one; where each line is complete by itself, it sees the tokens
  and the errors of the whole text (`endLines_lines`).
-/

import LoxFront.Proofs.Lines
import LoxFront.Proofs.Seam

namespace LoxFront

/-! ## The lines of a text -/

namespace Text

/-- The lines, each with its line feed; the last one may lack it. -/
def lines : Text → List Text
  | [] => []
  | c :: t =>
    if c = '\n' then [c] :: lines t
    else match lines t with
      | [] => [[c]]
      | line :: later => (c :: line) :: later

theorem lines_lineFeed {t : Text} (h : '\n' ∉ t) (rest : Text) : lines (t ++ '\n' :: rest) = (t ++ ['\n']) :: lines rest := by
  induction t with
  | nil => simp [lines]
  | cons c t ih =>
    have hc : c ≠ '\n' := fun hc => h (hc ▸ List.mem_cons_self)
    have ht := ih fun ht => h (List.mem_cons_of_mem c ht)
    simp [lines, hc, ht]

theorem lines_of_no_lineFeed {t : Text} (hne : t ≠ []) (h : '\n' ∉ t) : lines t = [t] := by
  induction t with
  | nil => exact absurd rfl hne
  | cons c t ih =>
    have hc : c ≠ '\n' := fun hc => h (hc ▸ List.mem_cons_self)
    cases t with
    | nil => simp [lines, hc]
    | cons d t =>
      have ht := ih (List.cons_ne_nil d t) fun ht => h (List.mem_cons_of_mem c ht)
      rw [lines, if_neg hc, ht]

/-- A byte of a character's code is a line feed only if the character is one. -/
theorem lineFeed_not_mem_utf8EncodeChar {c : Char} (h : c ≠ '\n') : lineFeed ∉ String.utf8EncodeChar c := by
  have hval : c.val.toNat ≠ 10 := fun hv => h (Char.ext (UInt32.toNat_inj.mp hv))
  have hbyte : ∀ n, n % 256 ≠ 10 → lineFeed ≠ UInt8.ofNat n := by
    intro n hn heq
    exact hn (by simpa [lineFeed] using (congrArg UInt8.toNat heq).symm)
  -- The only byte of a short code is the character itself; all others are 128 or more.
  rw [String.utf8EncodeChar]
  repeat' split
  all_goals simp only [List.mem_cons, List.not_mem_nil, or_false, not_or]
  · exact hbyte _ (by omega)
  · exact ⟨hbyte _ (by omega), hbyte _ (by omega)⟩
  · exact ⟨hbyte _ (by omega), hbyte _ (by omega), hbyte _ (by omega)⟩
  · exact ⟨hbyte _ (by omega), hbyte _ (by omega), hbyte _ (by omega), hbyte _ (by omega)⟩

end Text

theorem splitLines_append {bytes : List UInt8} (hne : bytes ≠ []) (h : lineFeed ∉ bytes) (rest : List UInt8) :
    splitLines (bytes ++ rest) =
      match splitLines rest with
      | [] => [bytes]
      | line :: later => (bytes ++ line) :: later := by
  induction bytes with
  | nil => exact absurd rfl hne
  | cons b bytes ih =>
    have hb : b ≠ lineFeed := fun hb => h (hb ▸ List.mem_cons_self)
    rw [List.cons_append, splitLines, if_neg hb]
    cases bytes with
    | nil =>
      rw [List.nil_append]
      cases splitLines rest <;> rfl
    | cons d bytes =>
      rw [ih (List.cons_ne_nil d bytes) fun hd => h (List.mem_cons_of_mem b hd)]
      cases splitLines rest <;> rfl

/-- The lines of a text are those that a session reads from its bytes. -/
theorem splitLines_utf8 (t : Text) : splitLines t.utf8 = (Text.lines t).map Text.utf8 := by
  induction t with
  | nil => rfl
  | cons c t ih =>
    have hutf8 : Text.utf8 (c :: t) = String.utf8EncodeChar c ++ Text.utf8 t := List.flatMap_cons
    rw [hutf8, Text.lines]
    by_cases hc : c = '\n'
    · subst hc
      have hbyte : String.utf8EncodeChar '\n' = [lineFeed] := by decide
      rw [if_pos rfl, hbyte, List.singleton_append, splitLines, if_pos rfl, ih, List.map_cons]
      rfl
    · rw [if_neg hc, splitLines_append String.utf8EncodeChar_ne_nil (Text.lineFeed_not_mem_utf8EncodeChar hc), ih]
      cases Text.lines t <;> simp [Text.utf8]

/-! ## A scan falls apart at a line feed -/

/-- The source ends inside a string or a block comment that nothing closes. -/
def EndsOpen (source : Text) : Prop := ∃ s ∈ (segments source).getLast?, s.isOpen

instance (source : Text) : Decidable (EndsOpen source) := inferInstanceAs (Decidable (∃ s ∈ _, _))

theorem segments_lineFeed {a : Text} (h : ¬ EndsOpen a) (b : Text) :
    segments (a ++ '\n' :: b) = segments a ++ .blank '\n' :: segments b := by
  have hlast : ∀ s ∈ (segments a).getLast?, s.EndedBy '\n' :=
    fun s hs => Segment.endedBy_lineFeed fun hopen => h ⟨s, hs, hopen⟩
  rw [segments_append (readBefore_blank (readBefore_segments a) rfl hlast b), segments_blank rfl]

theorem scan_lineFeed {a : Text} (h : ¬ EndsOpen a) (b : Text) :
    (scan (a ++ '\n' :: b)).tokens = (scan a).inner ++ (scan b).tokens.map (Token.shifted (1 + a.lineBreaks)) ∧
      (scan (a ++ '\n' :: b)).errors = (scan a).errors ++ (scan b).errors.map (LexicalError.shifted (1 + a.lineBreaks)) := by
  have hline : 1 + a.lineBreaks + Text.lineBreaks ['\n'] = 1 + (1 + a.lineBreaks) := by
    rw [Nat.add_comm]
    rfl
  have heof : 1 + Text.lineBreaks (a ++ '\n' :: b) = 1 + b.lineBreaks + (1 + a.lineBreaks) := by
    simp only [Text.lineBreaks, List.count_append, List.count_cons_self]
    omega
  rw [inner_scan, scan_eq, scan_eq a, scan_eq b, segments_lineFeed h]
  constructor
  · rw [tokensFrom_append, flatten_segments, tokensFrom_cons, Segment.text, hline, tokensFrom_shifted, List.map_append, heof]
    simp [Segment.token?, Token.eof, Token.shifted]
  · rw [errorsFrom_append, flatten_segments, errorsFrom_cons, Segment.text, hline, errorsFrom_shifted]
    rfl

/-! ## Line by line -/

/-- Of the segments that are not open, only a blank can end with a line feed. -/
theorem blank_of_getLast {s : Segment} (hs : s.Shaped) (hopen : ¬ s.isOpen) (h : s.text.getLast? = some '\n') :
    s = .blank '\n' := by
  have hmem : '\n' ∈ s.text := List.mem_of_getLast? h
  cases s with
  | mark | number => exact absurd hmem (@no_break_of_token _ 0 _ hs rfl nofun)
  | word t => exact absurd hmem (@no_break_of_token _ 0 _ hs rfl (Kind.ofWord_ne_string t))
  | string body =>
    rw [Segment.text, List.getLast?_concat] at h
    cases h
  | openString body | openComment body => exact absurd rfl hopen
  | lineComment body =>
    have hbody : '\n' ∈ body := by simpa [Segment.text] using hmem
    exact absurd hbody hs
  | blockComment body =>
    rw [Segment.text, List.getLast?_append] at h
    cases h
  | blank c =>
    obtain rfl : c = '\n' := by simpa [Segment.text] using h
    rfl
  | unexpected c =>
    obtain rfl : c = '\n' := by simpa [Segment.text] using h
    exact absurd rfl hs.1

/-- A line that is complete with its line feed is read as it is, whatever stands behind it. -/
theorem segments_line {t : Text} (h : ¬ EndsOpen (t ++ ['\n'])) (rest : Text) :
    segments (t ++ '\n' :: rest) = segments (t ++ ['\n']) ++ segments rest := by
  obtain ⟨segs, s, hsegs, htext, hshaped, hread⟩ := exists_last (List.concat_ne_nil '\n' t)
  have hopen : ¬ s.isOpen := fun hs => h ⟨s, by simp [hsegs], hs⟩
  have hend : s.text.getLast? = some '\n' := by
    have hlast := congrArg List.getLast? htext
    rw [List.getLast?_concat, List.getLast?_append, List.getLast?_eq_some_getLast hshaped.text_ne_nil] at hlast
    rw [List.getLast?_eq_some_getLast hshaped.text_ne_nil]
    exact hlast.symm
  obtain rfl := blank_of_getLast hshaped hopen hend
  have hbreak : ReadBefore ('\n' :: rest) segs :=
    readBefore_appended (List.cons_ne_nil '\n' []) hread (fun hpoint => absurd hpoint (by decide)) rest
  obtain rfl : t = segs.flatMap Segment.text := List.append_cancel_right htext
  rw [segments_of_readBefore hbreak, hsegs, segments_blank rfl, List.append_assoc, List.singleton_append]

/-- Scanned line by line, each segment ends on the line where it ends in the whole. The
    induction is on the number of line feeds. -/
theorem endLines_lines {source : Text} (h : ∀ line ∈ Text.lines source, ¬ EndsOpen line) (n : Nat) :
    endLines (1 + n) (segments source) =
      ((Text.lines source).zipIdx n).flatMap fun p => endLines (1 + p.2) (segments p.1) := by
  induction hk : source.lineBreaks generalizing source n with
  | zero =>
    have hbreak : '\n' ∉ source := List.count_eq_zero.mp hk
    cases source with
    | nil => simp [segments, Text.lines, endLines]
    | cons c t => simp [Text.lines_of_no_lineFeed (List.cons_ne_nil c t) hbreak]
  | succ k ih =>
    obtain ⟨t, rest, rfl, ht⟩ := List.eq_append_cons_of_mem (List.count_pos_iff.mp (Nat.lt_of_lt_of_eq k.succ_pos hk.symm))
    have hline : Text.lineBreaks (t ++ ['\n']) = 1 := by
      simp [Text.lineBreaks, List.count_eq_zero.mpr ht]
    have hrest : Text.lineBreaks rest = k := by
      simp [Text.lineBreaks, List.count_eq_zero.mpr ht] at hk ⊢
      exact hk
    rw [Text.lines_lineFeed ht] at h ⊢
    obtain ⟨hfirst, hlater⟩ := List.forall_mem_cons.mp h
    rw [segments_line hfirst, endLines_append, flatten_segments, hline, Nat.add_assoc, ih hlater (n + 1) hrest,
      List.zipIdx_cons, List.flatMap_cons]

theorem tokens_lines {source : Text} (h : ∀ line ∈ Text.lines source, ¬ EndsOpen line) :
    (scan source).tokens =
      ((Text.lines source).zipIdx.flatMap fun p => (scan p.1).inner.map (Token.shifted p.2)) ++
        [.eof (1 + source.lineBreaks)] := by
  have hlines := endLines_lines h 0
  rw [Nat.add_zero] at hlines
  rw [scan_eq, tokensFrom, hlines, List.filterMap_flatMap]
  simp only [inner_scan, ← tokensFrom_shifted]
  rfl

theorem errors_lines {source : Text} (h : ∀ line ∈ Text.lines source, ¬ EndsOpen line) :
    (scan source).errors =
      (Text.lines source).zipIdx.flatMap fun p => (scan p.1).errors.map (LexicalError.shifted p.2) := by
  have hlines := endLines_lines h 0
  rw [Nat.add_zero] at hlines
  rw [scan_eq, errorsFrom, hlines, List.filterMap_flatMap]
  simp only [scan_eq, ← errorsFrom_shifted]
  rfl

/-- Behind a text that does not end open, a line feed begins a new scan: its tokens and
    errors follow, each moved on by the lines in front. So a source whose lines, as a
    session reads them, do not end open gives line by line the tokens and the errors that
    it gives as a whole, but for the lines that they count from and for the end of each
    line. -/
theorem scan_composes_at_lineFeeds :
    (∀ a b, ¬ EndsOpen a →
      (scan (a ++ '\n' :: b)).tokens = (scan a).inner ++ (scan b).tokens.map (Token.shifted (1 + a.lineBreaks)) ∧
        (scan (a ++ '\n' :: b)).errors =
          (scan a).errors ++ (scan b).errors.map (LexicalError.shifted (1 + a.lineBreaks))) ∧
      ∀ source, (∀ line ∈ Text.lines source, ¬ EndsOpen line) →
        splitLines source.utf8 = (Text.lines source).map Text.utf8 ∧
          (scan source).tokens =
            ((Text.lines source).zipIdx.flatMap fun p => (scan p.1).inner.map (Token.shifted p.2)) ++
              [.eof (1 + source.lineBreaks)] ∧
          (scan source).errors =
            (Text.lines source).zipIdx.flatMap fun p => (scan p.1).errors.map (LexicalError.shifted p.2) := by
  refine ⟨fun a b h => scan_lineFeed h b, ?_⟩
  intro source h
  exact ⟨splitLines_utf8 source, tokens_lines h, errors_lines h⟩

/-- A number, a point and an open quotation mark in a comment, then a digit and an error on
    the next line. -/
theorem scan_pointAtLineEnd :
    ¬ EndsOpen "1. // \"".toList ∧ (∀ line ∈ Text.lines "1. // \"\n5@".toList, ¬ EndsOpen line) ∧
      (scan "1. // \"\n5@".toList).tokens = (scan "1. // \"".toList).inner ++ (scan "5@".toList).tokens.map (Token.shifted 1) ∧
      (scan "1. // \"\n5@".toList).errors = [.unexpected 2 '@'] := by
  have hopen : ¬ EndsOpen "1. // \"".toList := by decide +kernel
  have hlines : ∀ line ∈ Text.lines "1. // \"\n5@".toList, ¬ EndsOpen line := by decide +kernel
  have hfirst := scan_composes_at_lineFeeds.1 "1. // \"".toList "5@".toList hopen
  have hwhole := scan_composes_at_lineFeeds.2 "1. // \"\n5@".toList hlines
  exact ⟨hopen, hlines, hfirst.1, hwhole.2.2.trans (by decide +kernel)⟩

end LoxFront
