/-
  LoxFront.Diagnostic.Log — the diagnostics reported so far and not yet drained.

  A scan reports each of its errors as it meets it; the log is then the one with the scan's
  errors recorded in one batch (`scanInto_eq`). Draining takes the entries and leaves the
  flag, so the flag says whether anything was ever reported. `Log.emit` writes one line per
  entry, part by part, and stops at the first write that fails; `Operation` is one use of a
  log by its owner, with what the owner gets back.
-/

import LoxFront.Scan
import LoxFront.Sink

namespace LoxFront

structure Log where
  entries : List Diagnostic
  hadError : Bool
  deriving DecidableEq

namespace Log

def empty : Log := ⟨[], false⟩

def report (log : Log) (d : Diagnostic) : Log := ⟨log.entries ++ [d], true⟩

/-- A report that names no place. -/
def error (log : Log) (line : Nat) (message : Text) : Log := log.report ⟨line, [], message⟩

/-- All of a batch, in its order. An empty batch leaves the flag as it is. -/
def record (log : Log) (batch : List Diagnostic) : Log :=
  ⟨log.entries ++ batch, log.hadError || !batch.isEmpty⟩

def drain (log : Log) : Log := { log with entries := [] }

/-- The log after the scan's errors. -/
def recordScan (log : Log) (s : Scan) : Log := log.record (s.errors.map LexicalError.diagnostic)

/-- Scans a source; its errors are reported to the log as they are met. -/
def scanInto (log : Log) (source : Text) : List Token × Log :=
  scanWith (fun log e => log.report e.diagnostic) source log

def line (d : Diagnostic) : Text := d.text ++ ['\n']

def lineParts (d : Diagnostic) : List Text := d.parts ++ [['\n']]

/-- Each part of a line is a write of its own. -/
def emit (log : Log) (sink : Sink) : Except Sink Sink :=
  log.entries.foldlM (fun s d => (lineParts d).foldlM (fun s part => s.write part.utf8) s) sink

theorem record_eq_foldl_report (log : Log) (batch : List Diagnostic) :
    log.record batch = batch.foldl report log := by
  induction batch generalizing log with
  | nil => simp [record]
  | cons d batch ih => simp [← ih, record, report]

theorem scanInto_eq (log : Log) (source : Text) :
    log.scanInto source = ((scan source).tokens, log.recordScan (scan source)) := by
  rw [scanInto, scanWith_eq, recordScan, record_eq_foldl_report, List.foldl_map]

theorem utf8_lineParts (d : Diagnostic) : (lineParts d).flatMap Text.utf8 = (line d).utf8 := by
  rw [← Text.utf8_flatten, lineParts, List.flatten_append, d.flatten_parts]
  rfl

/-- An entry's end stops nothing: the parts of all lines are written in one go. -/
theorem emit_eq_writes (log : Log) (sink : Sink) :
    log.emit sink = (log.entries.flatMap lineParts).foldlM (fun s part => s.write part.utf8) sink := by
  unfold emit
  induction log.entries generalizing sink with
  | nil => rfl
  | cons d entries ih =>
    rw [List.foldlM_cons, List.flatMap_cons, List.foldlM_append]
    exact bind_congr ih

/-! ## Operations -/

inductive Operation
  | scan (source : Text)
  | error (line : Nat) (message : Text)
  | report (diagnostic : Diagnostic)
  | drain
  | entries
  /-- Goes through the entries, which stay. -/
  | iterate
  | length
  | isEmpty
  | hadError
  /-- Takes the log whole; a new one is in its place. -/
  | consume
  | emit (sink : Sink)

inductive Answer
  | none
  | tokens (tokens : List Token)
  | diagnostics (entries : List Diagnostic)
  | count (n : Nat)
  | flag (b : Bool)
  | emitted (sink : Except Sink Sink)

def run (log : Log) : Operation → Answer × Log
  | .scan source =>
    let (tokens, log) := log.scanInto source
    (.tokens tokens, log)
  | .error line message => (.none, log.error line message)
  | .report d => (.none, log.report d)
  | .drain => (.diagnostics log.entries, log.drain)
  | .entries => (.diagnostics log.entries, log)
  | .iterate => (.diagnostics log.entries, log)
  | .length => (.count log.entries.length, log)
  | .isEmpty => (.flag log.entries.isEmpty, log)
  | .hadError => (.flag log.hadError, log)
  | .consume => (.diagnostics log.entries, empty)
  | .emit sink => (.emitted (log.emit sink), log)

end Log

end LoxFront
