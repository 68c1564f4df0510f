import PathForecast.Bytes

/-!
# Binary codecs

A codec writes a value as bytes and reads one off the front of a byte string, leaving the rest.
Small codecs are put together by `both`, `convert`, `option` and `list`. Integers are written in
base 128, least digit first, every byte but the last with its high bit set; a reader accepts
overlong forms up to the width of the type.
-/

set_option autoImplicit false

namespace PathForecast

/-- Why bytes could not be decoded. -/
inductive DecodeFault where
  | endOfData
  | unterminatedVarint
  | badOption
  | badText
  /-- An index that names no alternative. -/
  | unknownAlternative
deriving DecidableEq

def DecodeFault.message : DecodeFault → String
  | .endOfData => "Hit the end of buffer, expected more data"
  | .unterminatedVarint =>
      "Found a varint that didn't terminate. Is the usize too big for this platform?"
  | .badOption => "Found an Option discriminant that wasn't 0 or 1"
  | .badText => "Tried to parse invalid utf-8"
  | .unknownAlternative => "Serde Deserialization Error"

/-- A way to write values as bytes and to read them back. -/
structure Codec (β : Type) where
  write : β → Bytes
  read : Bytes → Except DecodeFault (β × Bytes)

namespace Codec

variable {β γ : Type}

/-! ## Base 128 -/

/-- Writes a number in at most `size` bytes. -/
def writeVarint : Nat → Nat → Bytes
  | 0, _ => []
  | size + 1, n =>
      if n < 128 then [n.toUInt8] else (128 + n % 128).toUInt8 :: writeVarint size (n / 128)

/-- Reads a number of at most `size` bytes; the last possible byte is at most `last`. -/
def readVarint (last : Nat) : Nat → Bytes → Except DecodeFault (Nat × Bytes)
  | 0, _ => .error .unterminatedVarint
  | _ + 1, [] => .error .endOfData
  | size + 1, b :: rest =>
      let b := b.toNat
      if b < 128 then
        if size = 0 ∧ last < b then .error .unterminatedVarint else .ok (b, rest)
      else do
        let (n, rest) ← readVarint last size rest
        return (b - 128 + 128 * n, rest)

/-- Numbers below `2 ^ 32`. -/
def varint32 : Codec Nat := ⟨writeVarint 5, readVarint 15 5⟩

/-- Numbers below `2 ^ 64`. -/
def varint64 : Codec Nat := ⟨writeVarint 10, readVarint 1 10⟩

/-! ## Building codecs -/

/-- Codes a value through another type. -/
def convert (c : Codec β) (toCode : γ → β) (ofCode : β → γ) : Codec γ where
  write x := c.write (toCode x)
  read b := do
    let (x, rest) ← c.read b
    return (ofCode x, rest)

/-- One value after the other. -/
def both (c : Codec β) (d : Codec γ) : Codec (β × γ) where
  write x := c.write x.1 ++ d.write x.2
  read b := do
    let (x, rest) ← c.read b
    let (y, rest) ← d.read rest
    return ((x, y), rest)

/-- A byte that says whether a value follows. -/
def option (c : Codec β) : Codec (Option β) where
  write
    | none => [0]
    | some x => 1 :: c.write x
  read
    | [] => .error .endOfData
    | b :: rest =>
        if b = 0 then .ok (none, rest)
        else if b = 1 then do
          let (x, rest) ← c.read rest
          return (some x, rest)
        else .error .badOption

/-- Reads a given number of values. -/
def readMany (c : Codec β) : Nat → Bytes → Except DecodeFault (List β × Bytes)
  | 0, b => .ok ([], b)
  | n + 1, b => do
      let (x, rest) ← c.read b
      let (xs, rest) ← readMany c n rest
      return (x :: xs, rest)

/-- The number of values, then the values. -/
def list (c : Codec β) : Codec (List β) where
  write xs := varint64.write xs.length ++ xs.flatMap c.write
  read b := do
    let (n, rest) ← varint64.read b
    readMany c n rest

/-! ## Words and text -/

def uint32 : Codec UInt32 := varint32.convert (·.toNat) (·.toUInt32)

def uint64 : Codec UInt64 := varint64.convert (·.toNat) (·.toUInt64)

/-- Eight bytes, the least significant first. -/
def writeWord : Nat → Nat → Bytes
  | 0, _ => []
  | size + 1, n => (n % 256).toUInt8 :: writeWord size (n / 256)

def readWord : Nat → Bytes → Except DecodeFault (Nat × Bytes)
  | 0, b => .ok (0, b)
  | _ + 1, [] => .error .endOfData
  | size + 1, b :: rest => do
      let (n, rest) ← readWord size rest
      return (b.toNat + 256 * n, rest)

/-- A 64-bit word of fixed width. -/
def word : Codec UInt64 := ⟨fun w => writeWord 8 w.toNat, fun b => do
  let (n, rest) ← readWord 8 b
  return (n.toUInt64, rest)⟩

/-- The number of bytes, then the bytes of the text. -/
def text : Codec String where
  write s := varint64.write (Bytes.ofText s).length ++ Bytes.ofText s
  read b := do
    let (n, rest) ← varint64.read b
    if rest.length < n then throw .endOfData
    match Bytes.text? (rest.take n) with
    | some s => return (s, rest.drop n)
    | none => throw .badText

end Codec

end PathForecast
