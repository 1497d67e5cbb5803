/-
  LoxFront.Proofs.Legibility — what a run shows of a scan can be read back.

  Nothing that is shown is escaped, and a string can hold what looks like other tokens'
  lines. But the kind of a token, which stands in front, tells how its lexeme ends: a
  string's with the first quotation mark behind its own, every other one's with a space
  (`lexeme_eq`). The lexeme tells the literal (`literal_eq`), so a token's line ends in one
  place only, whatever stands behind it, and the end of the source ends the tokens
  (`tokens_eq_of_entries`). An error's line in front tells where its message begins, and of
  the message only one character is not fixed (`errors_eq_of_lines`).
-/

import LoxFront.Proofs.NumberText
import LoxFront.Proofs.RoundTrip
import LoxFront.Proofs.ExitCodes

namespace LoxFront

/-- Two texts that end at the first `d` are cut at the same place. -/
theorem cut_eq {d : Char} {a b r s : Text} (ha : d ∉ a) (hb : d ∉ b) (h : a ++ d :: r = b ++ d :: s) : a = b ∧ r = s := by
  have htake := congrArg (List.takeWhile (· ≠ d)) h
  have hdrop := congrArg (List.dropWhile (· ≠ d)) h
  rw [takeWhile_ne_run ha (by simp), takeWhile_ne_run hb (by simp)] at htake
  rw [dropWhile_ne_run ha (by simp), dropWhile_ne_run hb (by simp)] at hdrop
  exact ⟨htake, (List.cons.inj hdrop).2⟩

theorem numeral_injective : Function.Injective numeral := by
  intro m n h
  rw [← numeralValue_numeral m, h, numeralValue_numeral]

theorem zeroPadded_numeral_injective (width : Nat) : Function.Injective fun n => zeroPadded width (numeral n) := by
  intro m n h
  have hvalue := congrArg numeralValue h
  dsimp only at hvalue
  rwa [numeralValue_zeroPadded, numeralValue_zeroPadded, numeralValue_numeral, numeralValue_numeral] at hvalue

theorem not_mem_numeral {c : Char} (hc : ¬ c.isDigit) (n : Nat) : c ∉ numeral n :=
  fun h => hc (isDigit_of_mem_numeral h)

theorem not_mem_zeroPadded_numeral {c : Char} (hc : ¬ c.isDigit) (width n : Nat) : c ∉ zeroPadded width (numeral n) :=
  fun h => hc (isDigit_of_mem_zeroPadded (fun _ => isDigit_of_mem_numeral) h)

/-! ## Kinds and lexemes -/

theorem Kind.name_injective : Function.Injective Kind.name := by
  intro k l h
  have hsome : some k = some l := by rw [← Kind.ofName?_name, h, Kind.ofName?_name]
  exact Option.some.inj hsome

theorem Kind.space_not_mem_name (k : Kind) : ' ' ∉ k.name := by
  cases k with
  | mark m => cases m <;> decide
  | keyword k => cases k <;> decide
  | identifier | string | number | eof => decide

namespace Form

/-- A form that a scan's token can have. -/
def Scanned (f : Form) : Prop := WellFormed f ∨ f = .eof

/-- The literal that a lexeme of a kind stands for. -/
def literalOf (kind : Kind) (lexeme : Text) : Option Literal :=
  match kind with
  | .number => some (.number (.ofText lexeme))
  | .string => some (.text (lexeme.drop 1).dropLast)
  | _ => none

theorem kind_ne_eof {f : Form} (h : WellFormed f) : f.kind ≠ .eof := by
  cases h <;> exact nofun

theorem literal_eq {f : Form} (h : f.Scanned) : f.literal = literalOf f.kind f.lexeme := by
  rcases h with h | rfl
  · cases h with
    | number hne hw hf =>
      show _ = some (Literal.number (.ofText _))
      rw [Binary64.ofText, Decimal.ofText?_positional hne hw hf]
    | @string body _ =>
      show _ = some (Literal.text ((body ++ ['"']).dropLast))
      rw [List.dropLast_concat]
    | mark | keyword | identifier => rfl
  · rfl

theorem space_not_mem_lexeme {f : Form} (h : f.Scanned) (hk : f.kind ≠ .string) : ' ' ∉ f.lexeme := by
  rcases h with h | rfl
  · cases h with
    | mark m => cases m <;> decide
    | keyword k => cases k <;> decide
    | identifier hc hword _ =>
      intro hspace
      rcases List.mem_cons.mp hspace with rfl | hspace
      · exact absurd hc (by decide)
      · exact absurd (hword _ hspace) (by decide)
    | @number whole fraction _ hw hf =>
      have hwhole : ' ' ∉ whole := fun hspace => absurd (hw _ hspace) (by decide)
      have hfraction : ' ' ∉ fraction := fun hspace => absurd (hf _ hspace) (by decide)
      show ' ' ∉ Decimal.positional whole fraction
      unfold Decimal.positional
      split <;> simp [hwhole, hfraction]
    | string => exact absurd rfl hk
  · exact List.not_mem_nil

theorem string_lexeme {f : Form} (h : f.Scanned) (hk : f.kind = .string) :
    ∃ body, f.lexeme = '"' :: body ++ ['"'] ∧ '"' ∉ body := by
  rcases h with h | rfl
  · cases h with
    | @string body hbody => exact ⟨body, rfl, hbody⟩
    | mark | keyword | identifier | number => cases hk
  · cases hk

/-- In front of a space, lexemes of one kind end in one place only. -/
theorem lexeme_eq {f g : Form} (hf : f.Scanned) (hg : g.Scanned) (hkind : f.kind = g.kind) {r s : Text}
    (h : f.lexeme ++ ' ' :: r = g.lexeme ++ ' ' :: s) : f.lexeme = g.lexeme ∧ r = s := by
  by_cases hk : f.kind = .string
  · obtain ⟨body, hlexeme, hbody⟩ := string_lexeme hf hk
    obtain ⟨body', hlexeme', hbody'⟩ := string_lexeme hg (hkind ▸ hk)
    rw [hlexeme, hlexeme'] at h ⊢
    simp only [List.cons_append, List.append_assoc, List.nil_append, List.cons.injEq, true_and] at h
    obtain ⟨rfl, hrest⟩ := cut_eq hbody hbody' h
    exact ⟨rfl, (List.cons.inj hrest).2⟩
  · exact cut_eq (space_not_mem_lexeme hf hk) (space_not_mem_lexeme hg (hkind ▸ hk)) h

end Form

/-! ## A token's line -/

theorem Token.form_eq_of_text {t u : Token} (ht : t.form.Scanned) (hu : u.form.Scanned) {r s : Text}
    (h : t.text ++ '\n' :: r = u.text ++ '\n' :: s) : t.form = u.form ∧ r = s := by
  simp only [Token.text, List.append_assoc, List.cons_append] at h
  obtain ⟨hname, hrest⟩ := cut_eq t.kind.space_not_mem_name u.kind.space_not_mem_name h
  have hkind : t.form.kind = u.form.kind := Kind.name_injective hname
  obtain ⟨hlexeme, hrest⟩ := Form.lexeme_eq ht hu hkind hrest
  have hliteral : t.form.literal = u.form.literal := by
    rw [Form.literal_eq ht, Form.literal_eq hu, hkind, hlexeme]
  have hshown : t.literal = u.literal := hliteral
  rw [hshown] at hrest
  refine ⟨?_, (List.cons.inj (List.append_cancel_left hrest)).2⟩
  rw [Token.form, Token.form, Form.mk.injEq]
  exact ⟨hkind, hlexeme, hliteral⟩

namespace Listing

variable {listing : Listing}

/-- Under one index a line tells the token's form, and a numbered one the whole token. -/
theorem token_eq_of_entry {t u : Token} (ht : t.form.Scanned) (hu : u.form.Scanned) {index : Nat} {r s : Text}
    (h : listing.entry index t ++ r = listing.entry index u ++ s) :
    t.form = u.form ∧ (listing = .numbered → t = u) ∧ r = s := by
  cases listing with
  | bare =>
    simp only [entry, label, outputLine, List.nil_append, List.append_assoc, List.singleton_append] at h
    obtain ⟨hform, hrest⟩ := Token.form_eq_of_text ht hu h
    refine ⟨hform, ?_, hrest⟩
    intro hnumbered
    cases hnumbered
  | numbered =>
    simp only [entry, label, outputLine, List.append_assoc, List.singleton_append] at h
    obtain ⟨hline, hrest⟩ := cut_eq (not_mem_zeroPadded_numeral (by decide) 4 _) (not_mem_zeroPadded_numeral (by decide) 4 _)
      (List.append_cancel_left (List.append_cancel_left h))
    have hline : t.line = u.line := zeroPadded_numeral_injective 4 hline
    obtain ⟨hform, hrest⟩ := Token.form_eq_of_text ht hu hrest
    refine ⟨hform, fun _ => ?_, hrest⟩
    obtain ⟨hkind, hlexeme, hliteral⟩ := Form.mk.inj hform
    rw [Token.mk.injEq]
    exact ⟨hkind, hlexeme, hliteral, hline⟩

/-- The end of the source ends the tokens, as no other token has its form. -/
theorem tokens_eq_of_entries {ts us : List Token} (ht : ∀ t ∈ ts, WellFormed t.form) (hu : ∀ u ∈ us, WellFormed u.form)
    {m n k : Nat} {r s : Text}
    (h : ((ts ++ [Token.eof m]).zipIdx k).flatMap (fun p => listing.entry p.2 p.1) ++ r =
      ((us ++ [Token.eof n]).zipIdx k).flatMap (fun p => listing.entry p.2 p.1) ++ s) :
    (ts ++ [Token.eof m]).map Token.form = (us ++ [Token.eof n]).map Token.form ∧
      (listing = .numbered → ts ++ [Token.eof m] = us ++ [Token.eof n]) := by
  have hend : ∀ l, (Token.eof l).form.Scanned := fun _ => .inr rfl
  induction ts generalizing us k with
  | nil =>
    cases us with
    | nil =>
      obtain ⟨hform, hwhole, -⟩ := token_eq_of_entry (hend m) (hend n) (by simpa using h)
      exact ⟨rfl, fun hnumbered => congrArg (fun t => [t]) (hwhole hnumbered)⟩
    | cons u us =>
      have hwell := hu u List.mem_cons_self
      simp only [List.nil_append, List.cons_append, List.zipIdx_cons, List.flatMap_cons, List.append_assoc] at h
      obtain ⟨hform, -⟩ := token_eq_of_entry (hend m) (.inl hwell) h
      exact absurd (congrArg Form.kind hform).symm (Form.kind_ne_eof hwell)
  | cons t ts ih =>
    have hwell := ht t List.mem_cons_self
    cases us with
    | nil =>
      simp only [List.nil_append, List.cons_append, List.zipIdx_cons, List.flatMap_cons, List.append_assoc] at h
      obtain ⟨hform, -⟩ := token_eq_of_entry (.inl hwell) (hend n) h
      exact absurd (congrArg Form.kind hform) (Form.kind_ne_eof hwell)
    | cons u us =>
      simp only [List.cons_append, List.zipIdx_cons, List.flatMap_cons, List.append_assoc] at h
      obtain ⟨hform, hwhole, hrest⟩ := token_eq_of_entry (.inl hwell) (.inl (hu u List.mem_cons_self)) h
      obtain ⟨hforms, hall⟩ := ih (fun t' h' => ht t' (List.mem_cons_of_mem _ h'))
        (fun u' h' => hu u' (List.mem_cons_of_mem _ h')) hrest
      constructor
      · rw [List.cons_append, List.cons_append, List.map_cons, List.map_cons, hform, hforms]
      · intro hnumbered
        rw [List.cons_append, List.cons_append, hwhole hnumbered, hall hnumbered]

end Listing

/-! ## An error's line -/

namespace LexicalError

theorem line_diagnostic (e : LexicalError) (r : Text) :
    Log.line e.diagnostic ++ r =
      "[line ".toList ++ (numeral e.line ++ ']' :: (" Error ".toList ++ (": ".toList ++ (e.message ++ '\n' :: r)))) := by
  have hclose : "] Error ".toList = ']' :: " Error ".toList := by decide +kernel
  unfold Log.line Diagnostic.text diagnostic
  rw [hclose]
  -- no fixed text is to be taken apart
  generalize "[line ".toList = opening
  generalize " Error ".toList = error
  generalize ": ".toList = colon
  simp only [List.append_assoc, List.cons_append, List.nil_append]

/-- The cause of an error is told by the first letters of its message. -/
theorem message_ne (m n : Nat) (c : Char) (r s : Text) : (unexpected m c).message ++ r ≠ (unterminated n).message ++ s := by
  have hunexpected : "Unexpected character '".toList = ['U', 'n', 'e'] ++ "xpected character '".toList := by decide +kernel
  have hunterminated : "Unterminated string.".toList = ['U', 'n', 't'] ++ "erminated string.".toList := by decide +kernel
  unfold message
  dsimp only
  rw [hunexpected, hunterminated]
  generalize "xpected character '".toList = t
  generalize "erminated string.".toList = u
  simp

theorem eq_of_message {e f : LexicalError} (hline : e.line = f.line) {r s : Text} (h : e.message ++ r = f.message ++ s) :
    e = f ∧ r = s := by
  cases e with
  | unexpected m c =>
    cases f with
    | unexpected n d =>
      obtain rfl : m = n := hline
      unfold message at h
      rw [List.append_assoc, List.append_assoc] at h
      obtain ⟨rfl, hrest⟩ := List.cons.inj (List.append_cancel_left h)
      exact ⟨rfl, List.append_cancel_left hrest⟩
    | unterminated n => exact absurd h (message_ne m n c r s)
  | unterminated m =>
    cases f with
    | unexpected n d => exact absurd h.symm (message_ne n m d s r)
    | unterminated n =>
      obtain rfl : m = n := hline
      exact ⟨rfl, List.append_cancel_left h⟩

theorem eq_of_line {e f : LexicalError} {r s : Text} (h : Log.line e.diagnostic ++ r = Log.line f.diagnostic ++ s) :
    e = f ∧ r = s := by
  have hbracket : ¬ Char.isDigit ']' := by decide
  rw [line_diagnostic, line_diagnostic] at h
  obtain ⟨hline, hrest⟩ := cut_eq (not_mem_numeral hbracket _) (not_mem_numeral hbracket _) (List.append_cancel_left h)
  have hmessage := List.append_cancel_left (List.append_cancel_left hrest)
  obtain ⟨herror, hend⟩ := eq_of_message (numeral_injective hline) hmessage
  exact ⟨herror, (List.cons.inj hend).2⟩

theorem errors_eq_of_lines {es fs : List LexicalError}
    (h : es.flatMap (fun e => Log.line e.diagnostic) = fs.flatMap fun e => Log.line e.diagnostic) : es = fs := by
  have hne : ∀ e : LexicalError, Log.line e.diagnostic ≠ [] := fun e => List.concat_ne_nil _ _
  induction es generalizing fs with
  | nil =>
    cases fs with
    | nil => rfl
    | cons f fs => exact absurd (List.append_eq_nil_iff.mp h.symm).1 (hne f)
  | cons e es ih =>
    cases fs with
    | nil => exact absurd (List.append_eq_nil_iff.mp h).1 (hne e)
    | cons f fs =>
      obtain ⟨rfl, hrest⟩ := eq_of_line h
      rw [ih hrest]

end LexicalError

/-! ## A run's output -/

namespace Command

theorem tokens_eq_of_listed {setting : Setting} {path source source' : Text}
    (h : listed setting path (scan source) = listed setting path (scan source')) :
    (scan source).tokens.map Token.form = (scan source').tokens.map Token.form ∧
      (setting.listing = .numbered → (scan source).tokens = (scan source').tokens) := by
  have hwell : ∀ s : Text, ∀ t ∈ tokensFrom 1 (segments s), WellFormed t.form :=
    fun _ _ ht => (wellFormed_of_mem_tokensFrom ht).1
  have htokens : ∀ s : Text, (scan s).tokens = tokensFrom 1 (segments s) ++ [.eof (1 + s.lineBreaks)] :=
    fun s => by rw [scan_eq]
  unfold listed at h
  rw [Listing.report_eq, Listing.report_eq, List.append_assoc, List.append_assoc] at h
  have hentries := List.append_cancel_left h
  rw [htokens, htokens] at hentries ⊢
  exact Listing.tokens_eq_of_entries (hwell source) (hwell source') hentries

end Command

theorem Terminal.dressed_injective (terminal : Terminal) (style : Style) : Function.Injective (terminal.dressed style) := by
  intro a b h
  exact List.append_cancel_left (List.append_cancel_right h)

theorem Terminal.errors_eq_of_logBytes {terminal : Terminal} {s t : Scan}
    (h : terminal.logBytes s.log = terminal.logBytes t.log) : s.errors = t.errors := by
  have hnil : terminal.logBytes s.log = [] ↔ s.errors = [] := Command.logBytes_log_eq_nil_iff
  rw [h, Command.logBytes_log_eq_nil_iff] at hnil
  by_cases hs : s.errors = []
  · rw [hs, hnil.mpr hs]
  · rw [logBytes_log, logBytes_log, if_neg hs, if_neg (mt hnil.mp hs)] at h
    apply LexicalError.errors_eq_of_lines
    exact Text.utf8_injective (terminal.dressed_injective .red h)

namespace Command

/-- Two file runs under one path and one setting, whatever its terminal, whose standard errors
    take all writes. If standard output shows the same, the scans have tokens of the same
    kinds, lexemes and literals, and in a numbered listing on the same lines. If standard
    error shows the same, the scans have the same errors, each with its line and its message. -/
theorem run_tells_scan (setting : Setting) {path source source' : Text} {reader reader' : Reader}
    (input input' : List UInt8) (h : reader path = .ok source.utf8) (h' : reader' path = .ok source'.utf8) :
    ((run setting [path.utf8] reader input .unlimited).stdout = (run setting [path.utf8] reader' input' .unlimited).stdout →
        (scan source).tokens.map Token.form = (scan source').tokens.map Token.form ∧
          (setting.listing = .numbered → (scan source).tokens = (scan source').tokens)) ∧
      ((run setting [path.utf8] reader input .unlimited).stderr.received =
          (run setting [path.utf8] reader' input' .unlimited).stderr.received →
        (scan source).errors = (scan source').errors) := by
  have hopen : Sink.unlimited.room = none := rfl
  have hrun : ∀ reader input, run setting [path.utf8] reader input .unlimited = runFile setting reader path .unlimited :=
    fun reader input => run_texts setting [path] reader input .unlimited
  obtain ⟨t, ht, hreceived⟩ := runFile_open setting h hopen
  obtain ⟨t', ht', hreceived'⟩ := runFile_open setting h' hopen
  rw [hrun, hrun, ht, ht']
  refine ⟨tokens_eq_of_listed, ?_⟩
  intro hstderr
  rw [hreceived, hreceived'] at hstderr
  exact Terminal.errors_eq_of_logBytes (List.append_cancel_left hstderr)

/-- A string that holds what looks like the end of a listing, then an unexpected character
    and a number, with blanks between them or without. -/
def endInString (blanks : Text) : Text := "\"x\nEOF  \n\"".toList ++ blanks ++ '@' :: blanks ++ ['1']

/-- A file with this source, whatever its path. -/
def endInStringFile (blanks : Text) : Reader := fun _ => .ok (endInString blanks).utf8

def endInStringRun (blanks : Text) : Outcome :=
  run (.xterm .numbered) [sessionName.utf8] (endInStringFile blanks) [] .unlimited

theorem run_endInString :
    (endInStringRun []).stdout = (endInStringRun "\t ".toList).stdout ∧
      (endInStringRun []).stderr.received = (endInStringRun "\t ".toList).stderr.received ∧
      (scan (endInString [])).tokens = (scan (endInString "\t ".toList)).tokens ∧
      (scan (endInString [])).errors = (scan (endInString "\t ".toList)).errors := by
  have hread : ∀ blanks, endInStringFile blanks sessionName = .ok (endInString blanks).utf8 := fun _ => rfl
  have htold := run_tells_scan (.xterm .numbered) [] [] (hread []) (hread "\t ".toList)
  have hstdout : (endInStringRun []).stdout = (endInStringRun "\t ".toList).stdout := by decide +kernel
  have hstderr : (endInStringRun []).stderr.received = (endInStringRun "\t ".toList).stderr.received := by decide +kernel
  exact ⟨hstdout, hstderr, (htold.1 hstdout).2 rfl, htold.2 hstderr⟩

end Command

end LoxFront
