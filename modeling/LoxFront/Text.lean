/-
  LoxFront.Text — text as a list of characters, its UTF-8 bytes, the lines of a byte
  stream, and natural numbers written in decimal.

  `Text.ofUtf8?` reads exactly what `Text.utf8` writes (`ofUtf8?_eq_some_iff`): overlong
  forms, surrogates and cut sequences anywhere in the bytes are refused. `splitLines`
  loses no byte (`flatten_splitLines`).
-/

namespace LoxFront

abbrev Text := List Char

namespace Text

def utf8 (t : Text) : List UInt8 := t.flatMap String.utf8EncodeChar

def ofUtf8? (bytes : List UInt8) : Option Text :=
  bytes.toByteArray.utf8Decode?.map Array.toList

/-- Line breaks are line feeds; a carriage return is none. -/
def lineBreaks (t : Text) : Nat := t.count '\n'

theorem utf8_append (t u : Text) : utf8 (t ++ u) = utf8 t ++ utf8 u := by simp [utf8]

theorem utf8_flatten (ts : List Text) : utf8 ts.flatten = ts.flatMap utf8 := by
  induction ts with
  | nil => rfl
  | cons t ts ih => rw [List.flatten_cons, utf8_append, ih, List.flatMap_cons]

theorem lineBreaks_append (t u : Text) : lineBreaks (t ++ u) = lineBreaks t + lineBreaks u := by
  simp [lineBreaks]

theorem utf8Encode_eq (t : Text) : List.utf8Encode t = (utf8 t).toByteArray := rfl

theorem ofUtf8?_utf8 (t : Text) : ofUtf8? (utf8 t) = some t := by
  simp [ofUtf8?, ← utf8Encode_eq]

theorem ofUtf8?_eq_some_iff {bytes : List UInt8} {t : Text} : ofUtf8? bytes = some t ↔ bytes = utf8 t := by
  constructor
  · intro h
    obtain ⟨a, ha, rfl⟩ := Option.map_eq_some_iff.1 h
    have hs : bytes.toByteArray.utf8Decode?.isSome = true := by simp [ha]
    have he := ByteArray.utf8Encode_get_utf8Decode? (h := hs)
    simp only [ha, Option.get_some] at he
    rw [utf8Encode_eq] at he
    simpa using congrArg (·.data.toList) he.symm
  · rintro rfl
    exact ofUtf8?_utf8 t

theorem utf8_injective : Function.Injective utf8 := by
  intro t u h
  have hsome : some t = some u := by rw [← ofUtf8?_utf8, h, ofUtf8?_utf8]
  exact Option.some.inj hsome

end Text

def isText (bytes : List UInt8) : Bool := (Text.ofUtf8? bytes).isSome

theorem isText_iff {bytes : List UInt8} : isText bytes ↔ ∃ t : Text, bytes = t.utf8 := by
  rw [isText, Option.isSome_iff_exists]
  exact exists_congr fun _ => Text.ofUtf8?_eq_some_iff

theorem isText_utf8 (t : Text) : isText t.utf8 := isText_iff.mpr ⟨t, rfl⟩

theorem ofUtf8?_of_not_isText {bytes : List UInt8} (h : ¬ isText bytes) : Text.ofUtf8? bytes = none :=
  Option.not_isSome_iff_eq_none.mp h

theorem mapM_ofUtf8?_utf8 (ts : List Text) : (ts.map Text.utf8).mapM Text.ofUtf8? = some ts := by
  induction ts with
  | nil => rfl
  | cons t ts ih => simp [ih, Text.ofUtf8?_utf8]

theorem mapM_ofUtf8?_of_not_isText {parts : List (List UInt8)} (h : ∃ part ∈ parts, ¬ isText part) :
    parts.mapM Text.ofUtf8? = none := by
  obtain ⟨bad, hmem, hbad⟩ := h
  induction parts with
  | nil => cases hmem
  | cons part parts ih =>
    rw [List.mapM_cons]
    rcases List.mem_cons.mp hmem with rfl | hmem
    · rw [ofUtf8?_of_not_isText hbad]
      rfl
    · rw [ih hmem]
      cases Text.ofUtf8? part <;> rfl

theorem texts_or_not (parts : List (List UInt8)) :
    (∃ ts : List Text, parts = ts.map Text.utf8) ∨ ∃ part ∈ parts, ¬ isText part := by
  induction parts with
  | nil => exact .inl ⟨[], rfl⟩
  | cons part parts ih =>
    by_cases hpart : isText part
    · obtain ⟨t, rfl⟩ := isText_iff.mp hpart
      rcases ih with ⟨ts, rfl⟩ | ⟨bad, hmem, hbad⟩
      · exact .inl ⟨t :: ts, rfl⟩
      · exact .inr ⟨bad, List.mem_cons_of_mem _ hmem, hbad⟩
    · exact .inr ⟨part, List.mem_cons_self, hpart⟩

/-! ## Lines of a byte stream -/

def lineFeed : UInt8 := 10

/-- The lines, each with its line feed; the last one may lack it. No line is empty. -/
def splitLines : List UInt8 → List (List UInt8)
  | [] => []
  | b :: rest =>
    if b = lineFeed then [b] :: splitLines rest
    else match splitLines rest with
      | [] => [[b]]
      | line :: lines => (b :: line) :: lines

theorem flatten_splitLines (bytes : List UInt8) : (splitLines bytes).flatten = bytes := by
  induction bytes with
  | nil => rfl
  | cons b rest ih =>
    unfold splitLines
    split
    · simp [ih]
    · split
      · next h => simp [h] at ih; simp [← ih]
      · next h => simp [h] at ih; simp [← ih]

/-! ## Decimal numerals -/

def numeral (n : Nat) : Text := Nat.toDigits 10 n

/-- The number that a run of decimal digits denotes; leading zeros are allowed. -/
def numeralValue (digits : Text) : Nat := Nat.ofDigitChars 10 digits 0

/-- Zeros in front, up to `width` characters; a longer text is left as it is. -/
def zeroPadded (width : Nat) (digits : Text) : Text := digits.leftpad width '0'

theorem numeralValue_numeral (n : Nat) : numeralValue (numeral n) = n := Nat.ofDigitChars_ten_toDigits

end LoxFront
