/-
  LoxFront.Proofs.History — what a log has been told, and where it went.

  An operation reports to the log, takes from it or looks at it. What one operation hands
  out as taken and what is then in the log are what was in the log before and what the
  operation reported (`entries_run`), and the flag is set by reports alone (`hadError_run`).
  So over any number of operations nothing is lost, doubled or put in another order, and the
  flag says whether anything was ever reported (`log_accounts_for_reports`).
-/

import LoxFront.Proofs.Emission

namespace LoxFront.Log

/-- The reports that an operation makes: those of a scan are what it tells an empty log. -/
def Operation.reports : Operation → List Diagnostic
  | .scan source => (empty.scanInto source).2.entries
  | .error line message => [⟨line, [], message⟩]
  | .report d => [d]
  | _ => []

/-- What the answer hands out of the log, the log going on without it. -/
def Operation.taken : Operation → Answer → List Diagnostic
  | .drain, .diagnostics ds => ds
  | _, _ => []

/-- The answers to operations one after the other, and the log behind the last. -/
def runAll (log : Log) : List Operation → List Answer × Log
  | [] => ([], log)
  | op :: ops => ((log.run op).1 :: ((log.run op).2.runAll ops).1, ((log.run op).2.runAll ops).2)

def reported (ops : List Operation) : List Diagnostic := ops.flatMap Operation.reports

def taken (ops : List Operation) (answers : List Answer) : List Diagnostic :=
  (List.zipWith Operation.taken ops answers).flatten

/-! ## One operation -/

theorem reports_scan (source : Text) :
    Operation.reports (.scan source) = (scan source).errors.map LexicalError.diagnostic := by
  rw [Operation.reports, scanInto_eq]
  rfl

variable (log : Log) {op : Operation} (h : op ≠ .consume)

include h

theorem entries_run : op.taken (log.run op).1 ++ (log.run op).2.entries = log.entries ++ op.reports := by
  cases op with
  | scan source =>
    rw [reports_scan, run, scanInto_eq]
    rfl
  | error line message => rfl
  | report d => rfl
  | drain => rfl
  | consume => exact absurd rfl h
  | entries | iterate | length | isEmpty | hadError | emit => exact (List.append_nil _).symm

theorem hadError_run : (log.run op).2.hadError = (log.hadError || !op.reports.isEmpty) := by
  cases op with
  | scan source =>
    rw [reports_scan, run, scanInto_eq]
    rfl
  | error line message => exact (Bool.or_true _).symm
  | report d => exact (Bool.or_true _).symm
  | consume => exact absurd rfl h
  | drain | entries | iterate | length | isEmpty | hadError | emit => exact (Bool.or_false _).symm

omit h

/-! ## All ways to look at a log -/

/-- Each way to look at the log shows these entries, or as much of their lines as a sink has
    room for, and leaves the log as it is. Taken whole, the log gives them too. -/
structure Shows (entries : List Diagnostic) : Prop where
  listed : log.run .entries = (.diagnostics entries, log)
  iterated : log.run .iterate = (.diagnostics entries, log)
  counted : log.run .length = (.count entries.length, log)
  tested : log.run .isEmpty = (.flag (entries = []), log)
  asked : log.run .hadError = (.flag log.hadError, log)
  emitted : ∀ sink, ∃ result, log.run (.emit sink) = (.emitted result, log) ∧
    (Sink.after result).received = sink.received ++ Sink.fitting (entries.flatMap fun d => (line d).utf8) sink.room ∧
    ((∃ t, result = .ok t) ↔ ∀ room ∈ sink.room, (entries.flatMap fun d => (line d).utf8).length ≤ room)
  consumed : (log.run .consume).1 = .diagnostics entries

theorem shows_entries : log.Shows log.entries where
  listed := rfl
  iterated := rfl
  counted := rfl
  tested := by cases hentries : log.entries <;> simp [run, hentries]
  asked := rfl
  emitted := fun sink => ⟨log.emit sink, rfl, log.received_emit sink, log.emit_isOk_iff sink⟩
  consumed := rfl

/-! ## All operations -/

theorem entries_runAll {ops : List Operation} (h : .consume ∉ ops) :
    taken ops (log.runAll ops).1 ++ (log.runAll ops).2.entries = log.entries ++ reported ops := by
  -- what was taken early stands in front of what was reported late
  induction ops generalizing log with
  | nil => exact (List.append_nil _).symm
  | cons op ops ih =>
    rw [List.mem_cons, not_or] at h
    obtain ⟨hop, hops⟩ := h
    have hrest := ih (log.run op).2 hops
    have hfirst := log.entries_run (Ne.symm hop)
    unfold taken at hrest ⊢
    calc (List.zipWith Operation.taken (op :: ops) (log.runAll (op :: ops)).1).flatten ++ (log.runAll (op :: ops)).2.entries
        = op.taken (log.run op).1 ++ ((log.run op).2.entries ++ reported ops) := by
          rw [← hrest, runAll, List.zipWith_cons_cons, List.flatten_cons, List.append_assoc]
      _ = log.entries ++ reported (op :: ops) := by
          rw [← List.append_assoc, hfirst, List.append_assoc, reported, reported, List.flatMap_cons]

theorem hadError_runAll {ops : List Operation} (h : .consume ∉ ops) :
    (log.runAll ops).2.hadError = (log.hadError || !(reported ops).isEmpty) := by
  induction ops generalizing log with
  | nil => exact (Bool.or_false _).symm
  | cons op ops ih =>
    rw [List.mem_cons, not_or] at h
    obtain ⟨hop, hops⟩ := h
    rw [runAll, ih _ hops, log.hadError_run (Ne.symm hop), Bool.or_assoc, reported, reported, List.flatMap_cons]
    cases op.reports <;> rfl

/-- A log that starts empty and is used in any way but taken whole. What was taken out of it
    so far and then its entries are all reports made to it, in their order. The flag is set
    if and only if there was one, and no use takes it back. Every way to look at the log
    shows its entries, and none changes it. The tokens of a scan have nothing to do with
    what the log went through. -/
theorem log_accounts_for_reports {ops : List Operation} (h : .consume ∉ ops) :
    taken ops (empty.runAll ops).1 ++ (empty.runAll ops).2.entries = reported ops ∧
      ((empty.runAll ops).2.hadError = true ↔ reported ops ≠ []) ∧
      (∀ op ≠ .consume, (empty.runAll ops).2.hadError = true → ((empty.runAll ops).2.run op).2.hadError = true) ∧
      (empty.runAll ops).2.Shows (empty.runAll ops).2.entries ∧
      ∀ source, ((empty.runAll ops).2.run (.scan source)).1 = .tokens (scan source).tokens := by
  have hflag : (empty.runAll ops).2.hadError = !(reported ops).isEmpty := empty.hadError_runAll h
  refine ⟨empty.entries_runAll h, by simp [hflag], ?_, shows_entries _, ?_⟩
  · intro op hop hset
    rw [hadError_run _ hop, hset, Bool.true_or]
  · intro source
    rw [run, scanInto_eq]

/-- A scan, an emission that is cut short, a scan without errors and a report, and the
    entries taken between the two. -/
def drainedBetween : List Operation :=
  [.scan "@ 1".toList, .emit (.limited 9), .drain, .scan "1".toList, .error 4 "late".toList]

theorem log_drainedBetween :
    .consume ∉ drainedBetween ∧
      taken drainedBetween (empty.runAll drainedBetween).1 = [⟨1, [], "Unexpected character '@'.".toList⟩] ∧
      (empty.runAll drainedBetween).2 = ⟨[⟨4, [], "late".toList⟩], true⟩ ∧
      reported drainedBetween = [⟨1, [], "Unexpected character '@'.".toList⟩, ⟨4, [], "late".toList⟩] := by
  have hconsume : .consume ∉ drainedBetween := by simp [drainedBetween]
  have htaken : taken drainedBetween (empty.runAll drainedBetween).1 = [⟨1, [], "Unexpected character '@'.".toList⟩] := by
    decide +kernel
  have hlog : (empty.runAll drainedBetween).2 = ⟨[⟨4, [], "late".toList⟩], true⟩ := by decide +kernel
  have hreported := (log_accounts_for_reports hconsume).1
  rw [htaken, hlog] at hreported
  exact ⟨hconsume, htaken, hlog, hreported.symm⟩

end LoxFront.Log
