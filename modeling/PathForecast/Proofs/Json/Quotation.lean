import Mathlib.Tactic
import PathForecast.Json.Quoted
import PathForecast.Json.Token

/-!
# Quoted text is read as it was written

Text is escaped byte by byte, and what one byte is spelled as, a reader takes as one step. Main
statements: `stringBody_escape`, the spelling of a text ends at the closing quote and not before,
and `unescape_escape`, it stands for that text.
-/

set_option autoImplicit false

namespace PathForecast

open JsonValue JsonToken

/-! ## Single bytes -/

theorem hexValue?_hexDigit : ∀ n : Nat, n < 16 → hexValue? (hexDigit n) = some n := by
  decide +kernel

/-- A code point below the space is one byte. -/
theorem utf8_of_lt : ∀ n : Nat, n < 0x20 → utf8 n = [n.toUInt8] := by
  decide +kernel

/-- A byte that is spelled as itself. -/
structure Plain (b : UInt8) : Prop where
  ne_quote : b ≠ 0x22
  ne_backslash : b ≠ 0x5c
  not_lt : ¬b < 0x20

/-- The spellings of bytes: an escape of one letter, an escape of four digits, and the byte. -/
theorem escapeByte_cases (b : UInt8) :
    (∃ c, escapeByte b = [0x5c, c] ∧ isEscapeLetter c = true ∧ c ≠ 0x75 ∧
      escapedByte? c = some b) ∨
    (b < 0x20 ∧ escapeByte b =
      [0x5c, 0x75, 0x30, 0x30, hexDigit (b.toNat / 16), hexDigit (b.toNat % 16)]) ∨
    (Plain b ∧ escapeByte b = [b]) := by
  unfold escapeByte
  split_ifs with hquote hbackslash h8 hc ha hd h9 hlt
  case pos => exact .inl ⟨quote, rfl, rfl, by decide, by rw [hquote]; rfl⟩
  case pos => exact .inl ⟨backslash, rfl, rfl, by decide, by rw [hbackslash]; rfl⟩
  case pos => exact .inl ⟨0x62, rfl, rfl, by decide, by rw [h8]; rfl⟩
  case pos => exact .inl ⟨0x66, rfl, rfl, by decide, by rw [hc]; rfl⟩
  case pos => exact .inl ⟨0x6e, rfl, rfl, by decide, by rw [ha]; rfl⟩
  case pos => exact .inl ⟨0x72, rfl, rfl, by decide, by rw [hd]; rfl⟩
  case pos => exact .inl ⟨0x74, rfl, rfl, by decide, by rw [h9]; rfl⟩
  case pos => exact .inr (.inl ⟨hlt, rfl⟩)
  case neg => exact .inr (.inr ⟨⟨hquote, hbackslash, hlt⟩, rfl⟩)

/-! ## The end of a string -/

theorem stringBody_plain {b : UInt8} (h : Plain b) (done rest : Bytes) :
    stringBody done (b :: rest) = stringBody (b :: done) rest := by
  obtain ⟨hquote, hbackslash, hnotlt⟩ := h
  rw [stringBody]
  · simp [hnotlt, hbackslash]
  · exact hquote
  · exact fun _ _ _ _ _ h _ => hbackslash h
  · exact fun _ _ h _ => hbackslash h

theorem stringBody_letter {c : UInt8} (hletter : isEscapeLetter c = true) (hu : c ≠ 0x75)
    (done rest : Bytes) :
    stringBody done (0x5c :: c :: rest) = stringBody (c :: 0x5c :: done) rest := by
  rw [stringBody, if_pos hletter]
  exact fun _ _ _ _ _ h _ => hu h

theorem stringBody_hex {m n : Nat} (hm : m < 16) (hn : n < 16) (done rest : Bytes) :
    stringBody done (0x5c :: 0x75 :: 0x30 :: 0x30 :: hexDigit m :: hexDigit n :: rest) =
      stringBody (hexDigit n :: hexDigit m :: 0x30 :: 0x30 :: 0x75 :: 0x5c :: done) rest := by
  rw [stringBody, if_pos]
  simp only [List.all_cons, List.all_nil, hexValue?_hexDigit m hm, hexValue?_hexDigit n hn]
  rfl

theorem nibbles_lt {b : UInt8} (h : b < 0x20) : b.toNat / 16 < 16 ∧ b.toNat % 16 < 16 := by
  have hlt : b.toNat < 32 := h
  omega

theorem stringBody_escapeByte (b : UInt8) (done rest : Bytes) :
    stringBody done (escapeByte b ++ rest) = stringBody ((escapeByte b).reverse ++ done) rest := by
  rcases escapeByte_cases b with ⟨c, hb, hletter, hu, -⟩ | ⟨hlt, hb⟩ | ⟨hplain, hb⟩
  · rw [hb]
    exact stringBody_letter hletter hu done rest
  · rw [hb]
    exact stringBody_hex (nibbles_lt hlt).1 (nibbles_lt hlt).2 done rest
  · rw [hb]
    exact stringBody_plain hplain done rest

theorem stringBody_flatMap (bytes rest : Bytes) :
    ∀ done : Bytes, stringBody done (bytes.flatMap escapeByte ++ quote :: rest) =
      some (done.reverse ++ bytes.flatMap escapeByte, rest) := by
  induction bytes with
  | nil =>
      intro done
      rw [List.flatMap_nil, List.append_nil]
      rfl
  | cons b bytes ih =>
      intro done
      rw [List.flatMap_cons, List.append_assoc, stringBody_escapeByte, ih]
      simp

/-- A text that has been escaped ends at the quote that is put after it. -/
theorem stringBody_escape (text : String) (rest : Bytes) :
    stringBody [] (escape text ++ quote :: rest) = some (escape text, rest) :=
  stringBody_flatMap (Bytes.ofText text) rest []

/-! ## What a string stands for -/

theorem unescapeInto_plain {b : UInt8} (h : Plain b) (done rest : Bytes) :
    unescapeInto done (b :: rest) = unescapeInto (b :: done) rest := by
  rw [unescapeInto]
  · exact if_neg h.ne_backslash
  · exact fun _ _ _ _ _ hb _ => h.ne_backslash hb
  · exact fun _ _ hb _ => h.ne_backslash hb

theorem unescapeInto_letter {b c : UInt8} (hu : c ≠ 0x75) (hc : escapedByte? c = some b)
    (done rest : Bytes) :
    unescapeInto done (0x5c :: c :: rest) = unescapeInto (b :: done) rest := by
  rw [unescapeInto, hc]
  exact fun _ _ _ _ _ h _ => hu h

theorem unescapeInto_hex {b : UInt8} (h : b < 0x20) (done rest : Bytes) :
    unescapeInto done (0x5c :: 0x75 :: 0x30 :: 0x30 :: hexDigit (b.toNat / 16) ::
      hexDigit (b.toNat % 16) :: rest) = unescapeInto (b :: done) rest := by
  have hlt : b.toNat < 32 := h
  have hunit : hexUnit? 0x30 0x30 (hexDigit (b.toNat / 16)) (hexDigit (b.toNat % 16)) =
      some b.toNat := by
    have hzero : hexValue? 0x30 = some 0 := rfl
    simp only [hexUnit?, hzero, hexValue?_hexDigit _ (nibbles_lt h).1,
      hexValue?_hexDigit _ (nibbles_lt h).2, bind, Option.bind, pure]
    congr 1
    omega
  have hlow : isLowSurrogate b.toNat = false := by
    simp only [isLowSurrogate, Bool.and_eq_false_iff, decide_eq_false_iff_not]
    omega
  have hhigh : isHighSurrogate b.toNat = false := by
    simp only [isHighSurrogate, Bool.and_eq_false_iff, decide_eq_false_iff_not]
    omega
  rw [unescapeInto, hunit]
  simp only [hlow, hhigh, utf8_of_lt b.toNat hlt]
  simp

theorem unescapeInto_escapeByte (b : UInt8) (done rest : Bytes) :
    unescapeInto done (escapeByte b ++ rest) = unescapeInto (b :: done) rest := by
  rcases escapeByte_cases b with ⟨c, hb, -, hu, hc⟩ | ⟨hlt, hb⟩ | ⟨hplain, hb⟩
  · rw [hb]
    exact unescapeInto_letter hu hc done rest
  · rw [hb]
    exact unescapeInto_hex hlt done rest
  · rw [hb]
    exact unescapeInto_plain hplain done rest

theorem unescapeInto_flatMap (bytes : Bytes) :
    ∀ done : Bytes,
      unescapeInto done (bytes.flatMap escapeByte) = some (done.reverse ++ bytes) := by
  induction bytes with
  | nil =>
      intro done
      rw [List.flatMap_nil, List.append_nil]
      rfl
  | cons b bytes ih =>
      intro done
      rw [List.flatMap_cons, unescapeInto_escapeByte, ih, List.reverse_cons, List.append_assoc,
        List.singleton_append]

/-- A text that has been escaped stands for itself. -/
theorem unescape_escape (text : String) : unescape (escape text) = some text := by
  rw [unescape, escape, unescapeInto_flatMap]
  exact Bytes.text?_ofText text

end PathForecast
