/-
  LoxFront.Proofs.WholeFile — a file is scanned whole or not at all.

  The bytes of a file are scanned exactly if they are the code of a text, and then as that
  text is. One byte that belongs to no code, wherever it stands, keeps the reporter from
  hearing of any error in front of it; so does every other reason not to read a path
  (`scanPath_whole_or_nothing`).
-/

import LoxFront.Source
import LoxFront.Proofs.Encoding

namespace LoxFront

variable {ρ : Type} (report : ρ → LexicalError → ρ) (reader : Reader) (path : Text) (reporter : ρ)

theorem scanPathWith_utf8 {source : Text} (h : reader path = .ok source.utf8) :
    scanPathWith report reader path reporter = (.ok (scan source).tokens, (scan source).errors.foldl report reporter) := by
  rw [scanPathWith_ok report reporter h, scanWith_eq]

theorem scanPathWith_notUtf8 {bytes : List UInt8} (hread : reader path = .ok bytes) (h : ¬ WellCoded bytes) :
    scanPathWith report reader path reporter = (.error (.unreadable path .notUtf8), reporter) :=
  scanPathWith_error report reporter (readSource_notUtf8 hread (mt wellCoded_iff.mpr h))

theorem scanPathWith_unreadable {reason : ReadError} (h : reader path = .error reason) :
    scanPathWith report reader path reporter = (.error (.unreadable path reason), reporter) := by
  apply scanPathWith_error
  rw [readSource, h]

theorem scanPathWith_isOk_iff {bytes : List UInt8} (hread : reader path = .ok bytes) :
    (∃ tokens, (scanPathWith report reader path reporter).1 = .ok tokens) ↔ ∃ source : Text, bytes = source.utf8 := by
  constructor
  · rintro ⟨tokens, htokens⟩
    by_cases h : WellCoded bytes
    · exact wellCoded_iff.mp h
    · rw [scanPathWith_notUtf8 report reader path reporter hread h] at htokens
      cases htokens
  · rintro ⟨source, rfl⟩
    rw [scanPathWith_utf8 report reader path reporter hread]
    exact ⟨_, rfl⟩

/-- Whatever the reporter does with an error and whatever it has heard before: the bytes at
    a path are scanned if and only if they are the code of a text, which is to say that they
    are codes of characters one behind the other. The tokens are then those of the text and
    the reporter hears the text's errors in their order. Otherwise the failure says that the
    bytes are not text, or why there are none, and the reporter is as it was. -/
theorem scanPath_whole_or_nothing :
    (∀ bytes, reader path = .ok bytes →
        ((∃ tokens, (scanPathWith report reader path reporter).1 = .ok tokens) ↔ ∃ source : Text, bytes = source.utf8) ∧
          ((∃ source : Text, bytes = source.utf8) ↔ WellCoded bytes) ∧
          (∀ source : Text, bytes = source.utf8 →
            scanPathWith report reader path reporter =
              (.ok (scan source).tokens, (scan source).errors.foldl report reporter)) ∧
          (¬ WellCoded bytes →
            scanPathWith report reader path reporter = (.error (.unreadable path .notUtf8), reporter) ∧
              (Failure.unreadable path .notUtf8).text =
                "Could not read \"".toList ++ path ++ "\": stream did not contain valid UTF-8".toList)) ∧
      ∀ reason, reader path = .error reason →
        scanPathWith report reader path reporter = (.error (.unreadable path reason), reporter) := by
  constructor
  · intro bytes hread
    refine ⟨scanPathWith_isOk_iff report reader path reporter hread, wellCoded_iff.symm, ?_, ?_⟩
    · rintro source rfl
      exact scanPathWith_utf8 report reader path reporter hread
    · intro h
      refine ⟨scanPathWith_notUtf8 report reader path reporter hread h, ?_⟩
      show "Could not read \"".toList ++ path ++ "\": ".toList ++ ReadError.notUtf8.text = _
      rw [List.append_assoc, List.append_assoc]
      rfl
  · intro reason hread
    exact scanPathWith_unreadable report reader path reporter hread

/-- A number behind a byte order mark, and an unexpected character in front of the code that
    half of a surrogate pair would have. -/
def markAndSurrogate : Folder :=
  let marked := Folder.empty.put "mark".toList (.file [0xEF, 0xBB, 0xBF, 0x31])
  marked.put "src/half".toList (.file [0x40, 0x0A, 0xED, 0xA0, 0x80])

/-- The mark is reported as any other character; a log with an error in it hears nothing of
    the other file. -/
theorem scanPath_markAndSurrogate :
    markAndSurrogate.read "src/../mark".toList = .ok (Text.utf8 "\ufeff1".toList) ∧
      scanPath markAndSurrogate.read "src/../mark".toList .empty =
        (.ok (scan "\ufeff1".toList).tokens, ⟨[⟨1, [], "Unexpected character '\ufeff'.".toList⟩], true⟩) ∧
      markAndSurrogate.read "src/half".toList = .ok [0x40, 0x0A, 0xED, 0xA0, 0x80] ∧
      scanPath markAndSurrogate.read "src/half".toList ⟨[], true⟩ =
        (.error (.unreadable "src/half".toList .notUtf8), ⟨[], true⟩) := by
  have hmark : markAndSurrogate.read "src/../mark".toList = .ok (Text.utf8 "\ufeff1".toList) := by rfl
  have hhalf : markAndSurrogate.read "src/half".toList = .ok [0x40, 0x0A, 0xED, 0xA0, 0x80] := by rfl
  have hcoded : ¬ WellCoded [0x40, 0x0A, 0xED, 0xA0, 0x80] := by
    rw [wellCoded_iff]
    rintro ⟨source, hsource⟩
    have hdecoded := Text.ofUtf8?_eq_some_iff.mpr hsource
    have hnone : Text.ofUtf8? [0x40, 0x0A, 0xED, 0xA0, 0x80] = none := by decide +kernel
    rw [hnone] at hdecoded
    cases hdecoded
  have htext := (scanPath_whole_or_nothing (fun (log : Log) e => log.report e.diagnostic) markAndSurrogate.read
    "src/../mark".toList .empty).1 _ hmark
  have hother := (scanPath_whole_or_nothing (fun (log : Log) e => log.report e.diagnostic) markAndSurrogate.read
    "src/half".toList ⟨[], true⟩).1 _ hhalf
  have herrors : (scan "\ufeff1".toList).errors = [.unexpected 1 '\ufeff'] := by decide +kernel
  have hscan := htext.2.2.1 _ rfl
  rw [herrors] at hscan
  exact ⟨hmark, hscan, hhalf, (hother.2.2.2 hcoded).1⟩

end LoxFront
