/-
  LoxFront.Source — scanning the source stored at a path.

  Bytes are read and decoded whole before anything is scanned, so a path that cannot be
  read leaves the reporter as it was (`scanPathWith_error`), and one that can is scanned as
  its text is (`scanPathWith_ok`); a log is one such reporter (`scanPath`). A byte order mark
  is a character like any other.
-/

import LoxFront.Diagnostic.Log
import LoxFront.Failure

namespace LoxFront

/-- The bytes at each path. -/
abbrev Reader := Text → Except ReadError (List UInt8)

def readSource (reader : Reader) (path : Text) : Except Failure Text :=
  match reader path with
  | .error reason => .error (.unreadable path reason)
  | .ok bytes =>
    match Text.ofUtf8? bytes with
    | some source => .ok source
    | none => .error (.unreadable path .notUtf8)

variable {ρ : Type}

/-- The tokens, and the reporter after the errors; or the failure, and the reporter as it was. -/
def scanPathWith (report : ρ → LexicalError → ρ) (reader : Reader) (path : Text) (reporter : ρ) :
    Except Failure (List Token) × ρ :=
  match readSource reader path with
  | .ok source =>
    let (tokens, reporter) := scanWith report source reporter
    (.ok tokens, reporter)
  | .error failure => (.error failure, reporter)

/-- The errors are reported to a log. -/
def scanPath (reader : Reader) (path : Text) (log : Log) : Except Failure (List Token) × Log :=
  scanPathWith (fun log e => log.report e.diagnostic) reader path log

theorem readSource_ok_iff {reader : Reader} {path source : Text} :
    readSource reader path = .ok source ↔ reader path = .ok source.utf8 := by
  unfold readSource
  constructor
  · intro h
    split at h
    · cases h
    · next bytes hr =>
      split at h
      · next hs => cases h; rw [hr, Text.ofUtf8?_eq_some_iff.mp hs]
      · cases h
  · intro h
    simp [h, Text.ofUtf8?_utf8]

/-- A failure to read names the path. -/
theorem readSource_error {reader : Reader} {path : Text} {failure : Failure} (h : readSource reader path = .error failure) :
    ∃ reason, failure = .unreadable path reason := by
  unfold readSource at h
  split at h
  · cases h
    exact ⟨_, rfl⟩
  · split at h
    · cases h
    · cases h
      exact ⟨_, rfl⟩

theorem readSource_notUtf8 {reader : Reader} {path : Text} {bytes : List UInt8} (hread : reader path = .ok bytes)
    (h : ¬ ∃ source : Text, bytes = source.utf8) : readSource reader path = .error (.unreadable path .notUtf8) := by
  have hnone : Text.ofUtf8? bytes = none := by
    rw [Option.eq_none_iff_forall_ne_some]
    intro source hsource
    exact h ⟨source, Text.ofUtf8?_eq_some_iff.mp hsource⟩
  simp only [readSource, hread, hnone]

section

variable (report : ρ → LexicalError → ρ) {reader : Reader} {path : Text} (reporter : ρ)

theorem scanPathWith_ok {source : Text} (h : reader path = .ok source.utf8) :
    scanPathWith report reader path reporter =
      (.ok (scanWith report source reporter).1, (scanWith report source reporter).2) := by
  rw [scanPathWith, readSource_ok_iff.mpr h]

theorem scanPathWith_error {failure : Failure} (h : readSource reader path = .error failure) :
    scanPathWith report reader path reporter = (.error failure, reporter) := by
  rw [scanPathWith, h]

end

theorem scanPath_ok {reader : Reader} {path source : Text} (log : Log) (h : reader path = .ok source.utf8) :
    scanPath reader path log = (.ok (scan source).tokens, log.recordScan (scan source)) := by
  rw [scanPath, scanPathWith_ok _ _ h]
  show (Except.ok (log.scanInto source).1, (log.scanInto source).2) = _
  rw [Log.scanInto_eq]

end LoxFront
