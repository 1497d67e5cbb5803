/-
  LoxFront.Proofs.Encoding — which bytes are text, byte by byte.

  A character's code has one to four bytes. The first byte gives the length and bounds the
  second one, so that no character has two codes and neither surrogates nor numbers above
  10FFFF have any (`charCode_iff`). Bytes are the code of a text exactly if they can be cut
  into such codes (`wellCoded_iff`).
-/

import LoxFront.Text

namespace LoxFront

/-- A byte behind the first one of a code. -/
def IsTrail (b : UInt8) : Prop := 0x80 ≤ b.toNat ∧ b.toNat ≤ 0xBF

/-- The bytes of one character. -/
inductive CharCode : List UInt8 → Prop
  | one {a : UInt8} : a.toNat ≤ 0x7F → CharCode [a]
  /-- C0 and C1 would begin codes of characters that a single byte has. -/
  | two {a b : UInt8} : 0xC2 ≤ a.toNat → a.toNat ≤ 0xDF → IsTrail b → CharCode [a, b]
  /-- Behind E0 two bytes are enough below A0; behind ED the surrogates begin at A0. -/
  | three {a b c : UInt8} : 0xE0 ≤ a.toNat → a.toNat ≤ 0xEF → IsTrail b → IsTrail c →
      (a.toNat = 0xE0 → 0xA0 ≤ b.toNat) → (a.toNat = 0xED → b.toNat ≤ 0x9F) → CharCode [a, b, c]
  /-- Behind F0 three bytes are enough below 90; behind F4 the characters end with 8F. -/
  | four {a b c d : UInt8} : 0xF0 ≤ a.toNat → a.toNat ≤ 0xF4 → IsTrail b → IsTrail c → IsTrail d →
      (a.toNat = 0xF0 → 0x90 ≤ b.toNat) → (a.toNat = 0xF4 → b.toNat ≤ 0x8F) → CharCode [a, b, c, d]

/-- Codes of characters, one behind the other. -/
def WellCoded (bytes : List UInt8) : Prop :=
  ∃ codes : List (List UInt8), (∀ code ∈ codes, CharCode code) ∧ codes.flatten = bytes

/-! ## One character -/

theorem charCode_utf8EncodeChar (c : Char) : CharCode (String.utf8EncodeChar c) := by
  have hvalid : c.val.toNat < 0xD800 ∨ 0xDFFF < c.val.toNat ∧ c.val.toNat < 0x110000 := c.valid
  unfold String.utf8EncodeChar
  dsimp only
  split
  · apply CharCode.one
    rw [UInt8.toNat_ofNat']
    omega
  split
  · apply CharCode.two <;> simp only [IsTrail, UInt8.toNat_ofNat'] <;> omega
  split
  · apply CharCode.three <;> simp only [IsTrail, UInt8.toNat_ofNat'] <;> omega
  · apply CharCode.four <;> simp only [IsTrail, UInt8.toNat_ofNat'] <;> omega

theorem exists_char {n : Nat} (h : n < 0xD800 ∨ 0xDFFF < n ∧ n < 0x110000) : ∃ c : Char, c.val.toNat = n :=
  ⟨Char.ofNatAux n h, rfl⟩

theorem ofNat_of_toNat {n : Nat} {b : UInt8} (h : n = b.toNat) : UInt8.ofNat n = b := by rw [h, UInt8.ofNat_toNat]

/-- The bits of a code's bytes, put together, are the character's number. -/
theorem exists_char_of_charCode {code : List UInt8} (h : CharCode code) : ∃ c : Char, code = String.utf8EncodeChar c := by
  cases h with
  | @one a ha =>
    obtain ⟨c, hc⟩ := exists_char (n := a.toNat) (by omega)
    refine ⟨c, ?_⟩
    simp only [String.utf8EncodeChar, hc]
    rw [if_pos ha, UInt8.ofNat_toNat]
  | @two a b hmin hmax hb =>
    obtain ⟨hb, hb'⟩ := hb
    obtain ⟨c, hc⟩ := exists_char (n := (a.toNat - 0xC0) * 64 + (b.toNat - 0x80)) (by omega)
    refine ⟨c, ?_⟩
    simp only [String.utf8EncodeChar, hc]
    rw [if_neg (by omega), if_pos (by omega), ofNat_of_toNat (b := a) (by omega), ofNat_of_toNat (b := b) (by omega)]
  | @three a b d hmin hmax hb hd hlong hsurrogate =>
    obtain ⟨hb, hb'⟩ := hb
    obtain ⟨hd, hd'⟩ := hd
    obtain ⟨c, hc⟩ := exists_char (n := (a.toNat - 0xE0) * 4096 + (b.toNat - 0x80) * 64 + (d.toNat - 0x80)) (by omega)
    refine ⟨c, ?_⟩
    simp only [String.utf8EncodeChar, hc]
    rw [if_neg (by omega), if_neg (by omega), if_pos (by omega), ofNat_of_toNat (b := a) (by omega),
      ofNat_of_toNat (b := b) (by omega), ofNat_of_toNat (b := d) (by omega)]
  | @four a b d e hmin hmax hb hd he hlong hlast =>
    obtain ⟨hb, hb'⟩ := hb
    obtain ⟨hd, hd'⟩ := hd
    obtain ⟨he, he'⟩ := he
    obtain ⟨c, hc⟩ := exists_char
      (n := (a.toNat - 0xF0) * 262144 + (b.toNat - 0x80) * 4096 + (d.toNat - 0x80) * 64 + (e.toNat - 0x80)) (by omega)
    refine ⟨c, ?_⟩
    simp only [String.utf8EncodeChar, hc]
    rw [if_neg (by omega), if_neg (by omega), if_neg (by omega), ofNat_of_toNat (b := a) (by omega),
      ofNat_of_toNat (b := b) (by omega), ofNat_of_toNat (b := d) (by omega), ofNat_of_toNat (b := e) (by omega)]

theorem charCode_iff {code : List UInt8} : CharCode code ↔ ∃ c : Char, code = String.utf8EncodeChar c := by
  constructor
  · exact exists_char_of_charCode
  · rintro ⟨c, rfl⟩
    exact charCode_utf8EncodeChar c

/-! ## A text -/

theorem wellCoded_iff {bytes : List UInt8} : WellCoded bytes ↔ ∃ t : Text, bytes = t.utf8 := by
  constructor
  · rintro ⟨codes, hcodes, rfl⟩
    induction codes with
    | nil => exact ⟨[], rfl⟩
    | cons code codes ih =>
      obtain ⟨c, rfl⟩ := charCode_iff.mp (hcodes code List.mem_cons_self)
      obtain ⟨t, ht⟩ := ih fun code' h => hcodes code' (List.mem_cons_of_mem _ h)
      exact ⟨c :: t, by rw [List.flatten_cons, ht, Text.utf8, Text.utf8, List.flatMap_cons]⟩
  · rintro ⟨t, rfl⟩
    refine ⟨t.map String.utf8EncodeChar, ?_, (List.flatMap_def).symm⟩
    intro code h
    obtain ⟨c, -, rfl⟩ := List.mem_map.mp h
    exact charCode_utf8EncodeChar c

end LoxFront
