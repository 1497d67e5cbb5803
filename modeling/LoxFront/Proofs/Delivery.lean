/-
  LoxFront.Proofs.Delivery — what comes through to standard error.

  A writer of fixed bytes brings all of them to a sink without a limit. To a full sink it
  brings none, and it fails there unless there were none to bring (`Delivers`). Both are
  properties of the bytes alone: of writers one behind the other the bytes add up
  (`Delivers.bind`), so what a terminal shows of a log or of a message is known once the
  bytes are (`delivers_showLog`, `delivers_showMessage`).
-/

import LoxFront.Terminal

namespace LoxFront

structure Delivers (write : Sink → Except Sink Sink) (bytes : List UInt8) : Prop where
  taken : ∀ s, s.room = none → ∃ t, write s = .ok t ∧ t.room = none ∧ t.received = s.received ++ bytes
  refused : ∀ s, s.room = some 0 →
    ∃ t, (write s = if bytes = [] then .ok t else .error t) ∧ t.room = some 0 ∧ t.received = s.received

namespace Delivers

theorem nothing : Delivers .ok [] := by
  constructor
  · intro s hs
    exact ⟨s, rfl, hs, (List.append_nil _).symm⟩
  · intro s hs
    exact ⟨s, rfl, hs, rfl⟩

theorem write (bytes : List UInt8) : Delivers (·.write bytes) bytes := by
  constructor
  · intro s hs
    rcases s.write_cases bytes with ⟨t, hwrite, hreceived, hroom, -⟩ | ⟨t, room, -, -, -, hroom, -⟩
    · exact ⟨t, hwrite, by rw [hroom, hs, Option.map_none], hreceived⟩
    · rw [hs] at hroom
      cases hroom
  · intro s hs
    rcases s.write_cases bytes with ⟨t, hwrite, hreceived, hroom, hfits⟩ | ⟨t, room, hwrite, hreceived, hfull, hroom, hcut⟩
    · obtain rfl : bytes = [] := List.eq_nil_of_length_eq_zero (Nat.le_zero.mp (hfits 0 hs))
      exact ⟨t, hwrite, by rw [hroom, hs]; rfl, by rw [hreceived, List.append_nil]⟩
    · obtain rfl : 0 = room := Option.some.inj (hs.symm.trans hroom)
      have hne : bytes ≠ [] := List.length_pos_iff.mp hcut
      exact ⟨t, by rw [hwrite, if_neg hne], hfull, by rw [hreceived, List.take_zero, List.append_nil]⟩

/-- After a failure nothing more is written. -/
theorem bind {v w : Sink → Except Sink Sink} {bytes more : List UInt8} (hv : Delivers v bytes) (hw : Delivers w more) :
    Delivers (fun s => v s >>= w) (bytes ++ more) := by
  constructor
  · intro s hs
    obtain ⟨t, ht, hroom, hreceived⟩ := hv.taken s hs
    obtain ⟨u, hu, hroom', hreceived'⟩ := hw.taken t hroom
    refine ⟨u, ?_, hroom', by rw [hreceived', hreceived, List.append_assoc]⟩
    show v s >>= w = .ok u
    rw [ht]
    exact hu
  · intro s hs
    obtain ⟨t, ht, hroom, hreceived⟩ := hv.refused s hs
    by_cases hb : bytes = []
    · obtain ⟨u, hu, hroom', hreceived'⟩ := hw.refused t hroom
      refine ⟨u, ?_, hroom', hreceived'.trans hreceived⟩
      show v s >>= w = _
      rw [ht, if_pos hb, hb, List.nil_append]
      exact hu
    · refine ⟨t, ?_, hroom, hreceived⟩
      show v s >>= w = _
      rw [ht, if_neg hb, if_neg (by simp [hb])]
      rfl

theorem foldlM {α : Type} (bytes : α → List UInt8) (items : List α) :
    Delivers (fun s => items.foldlM (fun s a => s.write (bytes a)) s) (items.flatMap bytes) := by
  induction items with
  | nil => exact nothing
  | cons a items ih => exact (write (bytes a)).bind ih

end Delivers

namespace Terminal

/-- A body's bytes with those of the style around them. -/
def dressed (terminal : Terminal) (style : Style) (body : List UInt8) : List UInt8 :=
  terminal.start style ++ body ++ terminal.reset

def messageBytes (terminal : Terminal) (message : Text) : List UInt8 :=
  terminal.dressed .boldRed (messageLine message).utf8

def logBytes (terminal : Terminal) (log : Log) : List UInt8 :=
  if log.entries = [] then [] else terminal.dressed .red (log.entries.flatMap fun d => (Log.line d).utf8)

variable (terminal : Terminal)

theorem delivers_inStyle {style : Style} {body : Sink → Except Sink Sink} {bytes : List UInt8} (h : Delivers body bytes) :
    Delivers (terminal.inStyle style body) (terminal.dressed style bytes) := by
  have hshown := (Delivers.write (terminal.start style)).bind (h.bind (.write terminal.reset))
  rw [← List.append_assoc] at hshown
  exact hshown

theorem delivers_showMessage (message : Text) : Delivers (terminal.showMessage message) (terminal.messageBytes message) :=
  terminal.delivers_inStyle (.write _)

/-- The flag of a log is not shown. -/
theorem showLog_congr {log log' : Log} (h : log.entries = log'.entries) :
    terminal.showLog log = terminal.showLog log' := by
  have hemit : log.emit = log'.emit := by
    funext sink
    rw [Log.emit, Log.emit, h]
  funext err
  rw [showLog, showLog, h, hemit]

theorem delivers_emit (log : Log) : Delivers log.emit (log.entries.flatMap fun d => (Log.line d).utf8) := by
  have hwrites := Delivers.foldlM Text.utf8 (log.entries.flatMap Log.lineParts)
  rw [List.flatMap_assoc, ← funext (log.emit_eq_writes)] at hwrites
  simpa only [Log.utf8_lineParts] using hwrites

theorem delivers_showLog (log : Log) : Delivers (terminal.showLog log) (terminal.logBytes log) := by
  unfold logBytes
  split
  · next h =>
    have hnothing : terminal.showLog log = .ok := funext (terminal.showLog_empty h)
    rw [hnothing]
    exact .nothing
  · next h =>
    have hstyled : terminal.showLog log = terminal.inStyle .red log.emit := by
      funext err
      rw [showLog, if_neg (by simpa using h)]
    rw [hstyled]
    exact terminal.delivers_inStyle (delivers_emit log)

theorem dressed_ne_nil (style : Style) {body : List UInt8} (h : body ≠ []) : terminal.dressed style body ≠ [] := by
  simp [dressed, h]

theorem messageBytes_ne_nil (message : Text) : terminal.messageBytes message ≠ [] :=
  terminal.dressed_ne_nil _ (by simp [messageLine, outputLine, Text.utf8])

theorem logBytes_eq_nil_iff {log : Log} : terminal.logBytes log = [] ↔ log.entries = [] := by
  unfold logBytes
  split
  · next h => simp [h]
  · next h =>
    refine iff_of_false (terminal.dressed_ne_nil _ ?_) h
    obtain ⟨d, entries, hentries⟩ := List.exists_cons_of_ne_nil h
    simp [hentries, Log.line, Text.utf8]

end Terminal

end LoxFront
