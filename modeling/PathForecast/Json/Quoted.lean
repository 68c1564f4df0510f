import PathForecast.Json.Value

/-!
# Quoted text

`escape` spells text for the inside of a JSON string and `unescape` reads such a spelling. Quotes,
backslashes and control characters are written as escapes and everything else as it is. A reader
takes every escape of the syntax; surrogates have to come in pairs, and the bytes that result have
to be valid UTF-8.
-/

set_option autoImplicit false

namespace PathForecast

namespace JsonValue

def hexDigit (n : Nat) : UInt8 := (if n < 10 then 0x30 + n else 0x57 + n).toUInt8

/-- The spelling of one byte of text. -/
def escapeByte (b : UInt8) : Bytes :=
  if b = quote then [backslash, quote]
  else if b = backslash then [backslash, backslash]
  else if b = 0x08 then [backslash, 0x62]
  else if b = 0x0c then [backslash, 0x66]
  else if b = 0x0a then [backslash, 0x6e]
  else if b = 0x0d then [backslash, 0x72]
  else if b = 0x09 then [backslash, 0x74]
  else if b < 0x20 then
    [backslash, 0x75, 0x30, 0x30, hexDigit (b.toNat / 16), hexDigit (b.toNat % 16)]
  else [b]

/-- The spelling of a text. -/
def escape (text : String) : Bytes := (Bytes.ofText text).flatMap escapeByte

/-- The byte that a one-letter escape stands for. -/
def escapedByte? (b : UInt8) : Option UInt8 :=
  if b = quote then some quote
  else if b = backslash then some backslash
  else if b = 0x2f then some 0x2f
  else if b = 0x62 then some 0x08
  else if b = 0x66 then some 0x0c
  else if b = 0x6e then some 0x0a
  else if b = 0x72 then some 0x0d
  else if b = 0x74 then some 0x09
  else none

/-- The number spelled by four hexadecimal digits. -/
def hexUnit? (a b c d : UInt8) : Option Nat := do
  let a ← hexValue? a
  let b ← hexValue? b
  let c ← hexValue? c
  let d ← hexValue? d
  return ((a * 16 + b) * 16 + c) * 16 + d

def isHighSurrogate (n : Nat) : Bool := 0xd800 ≤ n && n ≤ 0xdbff

def isLowSurrogate (n : Nat) : Bool := 0xdc00 ≤ n && n ≤ 0xdfff

/-- The code point of a pair of surrogates. -/
def joinSurrogates (n m : Nat) : Nat := 0x10000 + (n - 0xd800) * 0x400 + (m - 0xdc00)

/-- The UTF-8 bytes of a code point that is no surrogate. -/
def utf8 (n : Nat) : Bytes := Bytes.ofText (String.singleton (Char.ofNat n))

/-- Reads the bytes that a spelling stands for; `done` holds those read so far, last one first. -/
def unescapeInto (done : Bytes) : Bytes → Option Bytes
  | [] => some done.reverse
  | 0x5c :: 0x75 :: a :: b :: c :: d :: rest =>
      match hexUnit? a b c d with
      | none => none
      | some n =>
          if isLowSurrogate n then none
          else if isHighSurrogate n then
            match rest with
            | 0x5c :: 0x75 :: e :: f :: g :: h :: rest =>
                match hexUnit? e f g h with
                | none => none
                | some m =>
                    if isLowSurrogate m then
                      unescapeInto ((utf8 (joinSurrogates n m)).reverse ++ done) rest
                    else none
            | _ => none
          else unescapeInto ((utf8 n).reverse ++ done) rest
  | 0x5c :: b :: rest =>
      match escapedByte? b with
      | some x => unescapeInto (x :: done) rest
      | none => none
  | b :: rest => if b = backslash then none else unescapeInto (b :: done) rest

/-- The text that a spelling stands for. -/
def unescape (raw : Bytes) : Option String := (unescapeInto [] raw).bind Bytes.text?

end JsonValue

end PathForecast
