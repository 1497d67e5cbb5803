/-
  LoxFront.Proofs.Appending — what stays of a scan when text is put behind its source.

  Only the last lexeme of a source can go on in the text behind it, so all others are read
  again. The one exception is a point at the very end, behind a number without a fraction:
  with a digit behind it, it is the number's point, and the last two lexemes are one
  (`segments_appended`). An unexpected character never goes on, so it is reported in any
  case, and on its line.
-/

import LoxFront.Proofs.Lines
import LoxFront.Proofs.Seam

namespace LoxFront

/-! ## Segments -/

/-- All segments but the last stay; or a number and a point end the source, and all
    segments but these two stay. -/
theorem segments_appended {a : Text} (h : a ≠ []) (b : Text) :
    ∃ segs s, segments a = segs ++ [s] ∧ s.Shaped ∧ (∀ x ∈ segs, ¬ x.isOpen) ∧
      (segments (a ++ b) = segs ++ segments (s.text ++ b) ∨
        ∃ earlier whole, segs = earlier ++ [.number whole []] ∧ s = .mark .dot ∧ earlier <+: segments (a ++ b)) := by
  obtain ⟨segs, s, hsegs, rfl, hs, hread⟩ := exists_last h
  refine ⟨segs, s, hsegs, hs, not_isOpen_of_readBefore hread hs.text_ne_nil, ?_⟩
  by_cases hpoint : s = .mark .dot ∧ ∃ whole, segs.getLast? = some (.number whole [])
  · right
    obtain ⟨rfl, whole, hwhole⟩ := hpoint
    obtain ⟨earlier, rfl⟩ := List.getLast?_eq_some_iff.mp hwhole
    refine ⟨earlier, whole, rfl, rfl, ?_⟩
    obtain ⟨hearlier, ⟨hnumber, -⟩, -⟩ := readBefore_append.mp hread
    rw [List.flatMap_singleton] at hearlier
    -- The two lexemes are text that begins with a digit, so what is in front of them stays.
    have hdigit : (Segment.text (.number whole []) ++ Segment.text (.mark .dot)).head? ≠ some '.' := by
      rw [List.head?_append_of_ne_nil _ hnumber.text_ne_nil]
      exact fun hhead => absurd (isDigit_of_head hnumber hhead) (by decide)
    have hkept := readBefore_appended (List.append_ne_nil_of_left_ne_nil hnumber.text_ne_nil _) hearlier
      (fun hhead => absurd hhead hdigit) b
    have htext : (earlier ++ [Segment.number whole []]).flatMap Segment.text ++ Segment.text (.mark .dot) ++ b =
        earlier.flatMap Segment.text ++ (Segment.text (.number whole []) ++ Segment.text (.mark .dot) ++ b) := by
      simp
    rw [htext, segments_of_readBefore hkept]
    exact List.prefix_append _ _
  · left
    rw [List.append_assoc]
    refine segments_of_readBefore (readBefore_appended hs.text_ne_nil hread ?_ b)
    exact fun hhead hnumber => hpoint ⟨eq_point_of_head hs hhead, hnumber⟩

theorem prefix_endLines (line : Nat) {xs ys : List Segment} (h : xs <+: ys) : endLines line xs <+: endLines line ys := by
  obtain ⟨zs, rfl⟩ := h
  rw [endLines_append]
  exact List.prefix_append _ _

/-! ## Tokens -/

theorem dropLast_tokensFrom (line : Nat) (segs : List Segment) (s : Segment) :
    (tokensFrom line (segs ++ [s])).dropLast <+: tokensFrom line segs := by
  rw [tokensFrom_append, tokensFrom_cons]
  cases s.token? (line + Text.lineBreaks (segs.flatMap Segment.text) + s.text.lineBreaks) with
  | none => simpa using List.dropLast_prefix _
  | some t => simp

/-- The last two tokens are a number without a point and a point, directly behind it and at
    the end of the source. -/
def EndsOnPoint (source : Text) : Prop :=
  ∃ earlier p q t u, (spans source).filter (fun p => (p.token? source).isSome) = earlier ++ [p, q] ∧
    p.token? source = some t ∧ t.kind = .number ∧ '.' ∉ t.lexeme ∧
    q.token? source = some u ∧ u.kind = .mark .dot ∧ p.stop = q.start ∧ q.stop = source.length

theorem endsOnPoint_of_segments {source : Text} {earlier : List Segment} {whole : Text}
    (h : segments source = earlier ++ [.number whole []] ++ [.mark .dot]) : EndsOnPoint source := by
  have hlength := congrArg List.length (flatten_segments source)
  have hpoint : '.' ∉ whole := by
    have hmem : .number whole [] ∈ segments source := by simp [h]
    have hs := shaped_of_mem_segments hmem
    exact fun hmem => absurd (hs.2.1 '.' hmem) (by decide)
  have hspans : spans source = spansFrom 0 earlier ++
      spansFrom (earlier.flatMap Segment.text).length [.number whole [], .mark .dot] := by
    rw [spans, h, List.append_assoc, spansFrom_append, Nat.zero_add]
    rfl
  rw [h, List.flatMap_append, List.flatMap_append, List.flatMap_singleton, List.flatMap_singleton, List.length_append,
    List.length_append] at hlength
  generalize (earlier.flatMap Segment.text).length = place at hspans hlength
  refine ⟨(spansFrom 0 earlier).filter (fun p => (p.token? source).isSome), ⟨.number whole [], place, place + whole.length⟩,
    ⟨.mark .dot, place + whole.length, place + whole.length + 1⟩, _, _, ?_, rfl, rfl, hpoint, rfl, rfl, rfl, hlength⟩
  rw [hspans, List.filter_append]
  rfl

/-! ## Errors -/

def LexicalError.isUnexpected : LexicalError → Bool
  | .unexpected .. => true
  | .unterminated _ => false

/-- Only a string that nothing closes is reported as anything else. -/
theorem filter_errorsFrom {segs : List Segment} (h : ∀ s ∈ segs, ¬ s.isOpen) (line : Nat) :
    (errorsFrom line segs).filter LexicalError.isUnexpected = errorsFrom line segs := by
  induction segs generalizing line with
  | nil => rfl
  | cons s segs ih =>
    obtain ⟨hs, hsegs⟩ := List.forall_mem_cons.mp h
    rw [errorsFrom_cons, List.filter_append, ih hsegs]
    cases s
    case openString => exact absurd rfl hs
    all_goals rfl

/-- An unexpected character is one also with text behind it. -/
theorem unexpected_appended {s : Segment} (hs : s.Shaped) (b : Text) (line : Nat) :
    (errorsFrom line [s]).filter LexicalError.isUnexpected <+: errorsFrom line (segments (s.text ++ b)) := by
  cases s with
  | unexpected c =>
    rw [Segment.segments_of_prescribed ⟨hs, trivial⟩]
    change errorsFrom line [.unexpected c] <+: errorsFrom line ([.unexpected c] ++ segments b)
    exact (prefix_endLines line (List.prefix_append _ _)).filterMap _
  | _ => exact List.nil_prefix

/-! ## A scan with text behind it -/

theorem tokens_appended (a b : Text) :
    (scan a).inner.dropLast.dropLast <+: tokensFrom 1 (segments (a ++ b)) ∧
      (¬ EndsOnPoint a → (scan a).inner.dropLast <+: tokensFrom 1 (segments (a ++ b))) := by
  rw [inner_scan]
  by_cases ha : a = []
  · subst ha
    simp [segments]
  · obtain ⟨segs, s, hsegs, -, -, hkept | ⟨earlier, whole, rfl, rfl, hkept⟩⟩ := segments_appended ha b
    · have hprefix : (tokensFrom 1 (segments a)).dropLast <+: tokensFrom 1 (segments (a ++ b)) := by
        rw [hsegs, hkept]
        exact (dropLast_tokensFrom 1 segs s).trans ((prefix_endLines 1 (List.prefix_append _ _)).filterMap _)
      have hshorter := List.dropLast_prefix (tokensFrom 1 (segments a)).dropLast
      exact ⟨hshorter.trans hprefix, fun _ => hprefix⟩
    · refine ⟨?_, fun hpoint => absurd (endsOnPoint_of_segments hsegs) hpoint⟩
      obtain ⟨t, u, htokens⟩ : ∃ t u, tokensFrom 1 (segments a) = tokensFrom 1 earlier ++ [t, u] := by
        rw [hsegs, List.append_assoc, tokensFrom_append]
        exact ⟨_, _, rfl⟩
      rw [htokens, List.dropLast_append_of_ne_nil (List.cons_ne_nil t [u])]
      simpa [tokensFrom] using (prefix_endLines 1 hkept).filterMap _

theorem errors_appended (a b : Text) :
    (scan a).errors.filter LexicalError.isUnexpected <+: (scan (a ++ b)).errors := by
  rw [scan_eq, scan_eq]
  by_cases ha : a = []
  · subst ha
    simp [segments]
  · obtain ⟨segs, s, hsegs, hs, hopen, hkept | ⟨earlier, whole, rfl, rfl, hkept⟩⟩ := segments_appended ha b
    · rw [hsegs, hkept, errorsFrom_append, errorsFrom_append, List.filter_append, filter_errorsFrom hopen]
      exact (List.prefix_append_right_inj _).mpr (unexpected_appended hs b _)
    · have hnone : errorsFrom 1 (segments a) = errorsFrom 1 earlier := by
        rw [hsegs, List.append_assoc, errorsFrom_append]
        exact List.append_nil _
      have hearlier : ∀ x ∈ earlier, ¬ x.isOpen := fun x hx => hopen x (List.mem_append_left _ hx)
      rw [hnone, filter_errorsFrom hearlier]
      exact (prefix_endLines 1 hkept).filterMap _

/-- With text behind its source, a scan begins with the same tokens, on the same lines, up
    to the last one; and up to the last two, if these are a number and a point that the
    text may make one number of. It also begins with the same unexpected characters. -/
theorem scan_appended (a b : Text) :
    (EndsOnPoint a → (scan a).inner.dropLast.dropLast <+: (scan (a ++ b)).tokens) ∧
      (¬ EndsOnPoint a → (scan a).inner.dropLast <+: (scan (a ++ b)).tokens) ∧
      (scan a).errors.filter LexicalError.isUnexpected <+: (scan (a ++ b)).errors := by
  obtain ⟨hpoint, hother⟩ := tokens_appended a b
  have htokens : tokensFrom 1 (segments (a ++ b)) <+: (scan (a ++ b)).tokens := by
    rw [scan_eq]
    exact List.prefix_append _ _
  exact ⟨fun _ => hpoint.trans htokens, fun h => (hother h).trans htokens, errors_appended a b⟩

/-- A point at the end and a digit behind it make one number with the number in front; a
    slash at the end makes a comment with another one. -/
theorem scan_pointAndSlashAppended :
    EndsOnPoint "@x 1.".toList ∧ ¬ EndsOnPoint "@x 1./".toList ∧
      (scan "@x 1.".toList).inner.dropLast.dropLast = [⟨.identifier, ['x'], none, 1⟩] ∧
      [⟨.identifier, ['x'], none, 1⟩] <+: (scan "@x 1.5".toList).tokens ∧
      (scan "@x 1./".toList).inner.dropLast <+: (scan "@x 1.//".toList).tokens ∧
      [.unexpected 1 '@'] <+: (scan "@x 1.//".toList).errors := by
  have hpointed : EndsOnPoint "@x 1.".toList := by
    have hsegs : segments "@x 1.".toList = [.unexpected '@', .word ['x'], .blank ' '] ++ [.number ['1'] []] ++ [.mark .dot] := by
      decide +kernel
    exact endsOnPoint_of_segments hsegs
  have hslashed : ¬ EndsOnPoint "@x 1./".toList := by
    rintro ⟨earlier, p, q, t, u, hlast, -, -, -, hq, hkind, -, -⟩
    have hslash : (((spans "@x 1./".toList).filter (fun p => (p.token? "@x 1./".toList).isSome)).getLast?.bind
        (Span.token? "@x 1./".toList)).map Token.kind = some (.mark .slash) := by decide +kernel
    rw [hlast, List.getLast?_append] at hslash
    change (q.token? _).map Token.kind = _ at hslash
    rw [hq, Option.map_some, hkind] at hslash
    cases hslash
  have hkept : (scan "@x 1.".toList).inner.dropLast.dropLast = [⟨.identifier, ['x'], none, 1⟩] := by decide +kernel
  have hfirst := (scan_appended "@x 1.".toList ['5']).1 hpointed
  obtain ⟨-, hsecond, herrors⟩ := scan_appended "@x 1./".toList ['/']
  have hreported : (scan "@x 1./".toList).errors.filter LexicalError.isUnexpected = [.unexpected 1 '@'] := by decide +kernel
  rw [hkept] at hfirst
  rw [hreported] at herrors
  exact ⟨hpointed, hslashed, hkept, hfirst, hsecond hslashed, herrors⟩

end LoxFront
