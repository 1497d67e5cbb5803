/-
  LoxFront.Proofs.Emission — what a sink of any size receives of several writes.

  A write either fits or it fails, and what it leaves of the room is known in both cases.
  So writes one behind the other, ended by the first failure, bring as much of all their
  bytes as there is room for, wherever the bytes are cut (`received_writes`), and they
  succeed exactly if there is room for all (`writes_isOk_iff`). A log is emitted in
  such writes, several for each line (`received_emit`, `emit_isOk_iff`). So a sink that takes
  some number of bytes and then fails has that many bytes of the log's text, or the whole
  text if it is no longer (`emit_limited`).
-/

import LoxFront.Diagnostic.Log

namespace LoxFront

namespace Sink

variable {α : Type} (bytes : α → List UInt8)

/-- Behind bytes that fit, the rest has the room that they leave. -/
theorem fitting_append {first : List UInt8} {room : Option Nat} (h : ∀ n ∈ room, first.length ≤ n) (rest : List UInt8) :
    fitting (first ++ rest) room = first ++ fitting rest (room.map (· - first.length)) := by
  cases room with
  | none => rfl
  | some n =>
    show (first ++ rest).take n = first ++ rest.take (n - first.length)
    rw [List.take_append, List.take_of_length_le (h n rfl)]

theorem received_writes (items : List α) (s : Sink) :
    (after (items.foldlM (fun s a => s.write (bytes a)) s)).received =
      s.received ++ fitting (items.flatMap bytes) s.room := by
  induction items generalizing s with
  | nil =>
    show s.received = s.received ++ fitting [] s.room
    cases s.room <;> simp [fitting]
  | cons a items ih =>
    rw [List.foldlM_cons, List.flatMap_cons]
    rcases write_cases (bytes a) s with ⟨t, hwrite, hreceived, hroom, hfits⟩ | ⟨t, room, hwrite, hreceived, -, hroom, hcut⟩
    · rw [hwrite, fitting_append hfits]
      show (after (items.foldlM _ t)).received = _
      rw [ih t, hreceived, hroom, List.append_assoc]
    · rw [hwrite, hroom]
      show t.received = s.received ++ (bytes a ++ items.flatMap bytes).take room
      rw [List.take_append_of_le_length (Nat.le_of_lt hcut), hreceived]

theorem writes_isOk_iff (items : List α) (s : Sink) :
    (∃ t, items.foldlM (fun s a => s.write (bytes a)) s = .ok t) ↔
      ∀ room ∈ s.room, (items.flatMap bytes).length ≤ room := by
  induction items generalizing s with
  | nil => exact iff_of_true ⟨s, rfl⟩ (by simp)
  | cons a items ih =>
    rw [List.foldlM_cons, List.flatMap_cons, List.length_append]
    rcases write_cases (bytes a) s with ⟨t, hwrite, -, hroom, hfits⟩ | ⟨t, room, hwrite, -, -, hroom, hcut⟩
    · rw [hwrite]
      show (∃ u, items.foldlM (fun s a => s.write (bytes a)) t = Except.ok u) ↔ _
      rw [ih t, hroom]
      cases hs : s.room with
      | none => simp
      | some n =>
        have hfirst : (bytes a).length ≤ n := hfits n hs
        simp only [Option.map_some, Option.mem_def, Option.some.injEq, forall_eq']
        omega
    · rw [hwrite, hroom]
      refine iff_of_false ?_ ?_
      · rintro ⟨u, hu⟩
        cases hu
      · intro h
        have hall := h room rfl
        omega

end Sink

namespace Log

/-- All lines of the log in bytes. -/
def rendering (log : Log) : List UInt8 := log.entries.flatMap fun d => (line d).utf8

theorem utf8_parts (log : Log) : (log.entries.flatMap lineParts).flatMap Text.utf8 = log.rendering := by
  simp only [List.flatMap_assoc, utf8_lineParts]
  rfl

theorem received_emit (log : Log) (sink : Sink) :
    (Sink.after (log.emit sink)).received = sink.received ++ Sink.fitting log.rendering sink.room := by
  rw [emit_eq_writes, Sink.received_writes Text.utf8, utf8_parts]

theorem emit_isOk_iff (log : Log) (sink : Sink) :
    (∃ t, log.emit sink = .ok t) ↔ ∀ room ∈ sink.room, log.rendering.length ≤ room := by
  rw [emit_eq_writes, Sink.writes_isOk_iff Text.utf8, utf8_parts]

/-- The lines of all entries, one behind the other. -/
def text (log : Log) : Text := log.entries.flatMap line

theorem utf8_text (log : Log) : log.text.utf8 = log.rendering := List.flatMap_assoc

/-- A sink takes `limit` bytes and then fails. It receives exactly that many of the bytes of
    the log's text, or all if there are no more of them, even where the last one is in the
    middle of a character or of a line. The emission succeeds if and only if there was room
    for all, so always where the log has no entries, and it leaves the log as it was. -/
theorem emit_limited (log : Log) (limit : Nat) :
    (Sink.after (log.emit (.limited limit))).received = log.text.utf8.take (min limit log.text.utf8.length) ∧
      ((∃ sink, log.emit (.limited limit) = .ok sink) ↔ log.text.utf8.length ≤ limit) ∧
      (log.entries = [] → ∃ sink, log.emit (.limited limit) = .ok sink) ∧
      (log.run (.emit (.limited limit))).2 = log := by
  have hreceived := log.received_emit (.limited limit)
  have hok := log.emit_isOk_iff (.limited limit)
  rw [utf8_text]
  refine ⟨?_, ?_, ?_, rfl⟩
  · rw [hreceived, ← List.take_eq_take_min]
    rfl
  · rw [hok]
    simp [Sink.limited]
  · intro hnone
    rw [hok]
    simp [rendering, hnone]

/-- The cut is behind the first of the two bytes of the last character. -/
example : (Sink.after ((empty.error 3 ['é']).emit (.limited 18))).received = Text.utf8 "[line 3] Error : ".toList ++ [0xC3] := by
  decide +kernel

end Log

end LoxFront
