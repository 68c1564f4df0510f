import PathForecast.Json.Value

/-!
# Tokens

Splits JSON text into brackets, separators and scalar values. A token is read off the front of the
text and leaves the rest; blanks between tokens are skipped. Inside a string the syntax asks for
escapes that exist and for no raw control character.
-/

set_option autoImplicit false

namespace PathForecast

/-- One token of JSON text. -/
inductive JsonToken where
  | openArray
  | closeArray
  | openObject
  | closeObject
  | comma
  | colon
  | string (raw : Bytes)
  /-- A number or one of the three literal names. -/
  | scalar (value : JsonValue)

namespace JsonToken

open JsonValue (isDigit isBlank hexValue?)

/-- Whether a letter may follow a backslash; `u` is handled apart. -/
def isEscapeLetter (b : UInt8) : Bool :=
  b == 0x22 || b == 0x5c || b == 0x2f || b == 0x62 || b == 0x66 || b == 0x6e || b == 0x72 ||
    b == 0x74

/-- Reads a string up to its closing quote; `done` holds what was read, last byte first. -/
def stringBody (done : Bytes) : Bytes → Option (Bytes × Bytes)
  | [] => none
  | 0x22 :: rest => some (done.reverse, rest)
  | 0x5c :: 0x75 :: a :: b :: c :: d :: rest =>
      if [a, b, c, d].all (fun x => (hexValue? x).isSome) then
        stringBody (d :: c :: b :: a :: 0x75 :: 0x5c :: done) rest
      else none
  | 0x5c :: b :: rest => if isEscapeLetter b then stringBody (b :: 0x5c :: done) rest else none
  | b :: rest => if b < 0x20 || b == 0x5c then none else stringBody (b :: done) rest

/-- The digits at the front, if there is at least one. -/
def digits? (b : Bytes) : Option (Bytes × Bytes) :=
  let ds := b.takeWhile isDigit
  if ds.isEmpty then none else some (ds, b.drop ds.length)

/-- A whole number: a zero, or digits that do not begin with one. -/
def whole? (b : Bytes) : Option (Bytes × Bytes) :=
  match b with
  | 0x30 :: rest => some ([0x30], rest)
  | _ => digits? b

/-- A point and digits, or nothing. -/
def fraction? (b : Bytes) : Option (Bytes × Bytes) :=
  match b with
  | 0x2e :: rest => (digits? rest).map fun (ds, rest) => (0x2e :: ds, rest)
  | _ => some ([], b)

/-- The letter `e` with a signed number, or nothing. -/
def exponent? (b : Bytes) : Option (Bytes × Bytes) :=
  match b with
  | e :: rest =>
      if e == 0x65 || e == 0x45 then
        match rest with
        | s :: rest' =>
            if s == 0x2b || s == 0x2d then
              (digits? rest').map fun (ds, r) => (e :: s :: ds, r)
            else (digits? rest).map fun (ds, r) => (e :: ds, r)
        | [] => none
      else some ([], b)
  | [] => some ([], b)

/-- A number literal without its sign. -/
def unsigned? (b : Bytes) : Option (Bytes × Bytes) := do
  let (w, rest) ← whole? b
  let (f, rest) ← fraction? rest
  let (e, rest) ← exponent? rest
  return (w ++ f ++ e, rest)

/-- A number literal. -/
def number? (b : Bytes) : Option (Bytes × Bytes) :=
  match b with
  | 0x2d :: rest => (unsigned? rest).map fun (n, r) => (0x2d :: n, r)
  | _ => unsigned? b

/-- The token at the front of a text that does not begin with a blank. -/
def next? (b : Bytes) : Option (JsonToken × Bytes) :=
  match b with
  | 0x5b :: rest => some (.openArray, rest)
  | 0x5d :: rest => some (.closeArray, rest)
  | 0x7b :: rest => some (.openObject, rest)
  | 0x7d :: rest => some (.closeObject, rest)
  | 0x2c :: rest => some (.comma, rest)
  | 0x3a :: rest => some (.colon, rest)
  | 0x22 :: rest => (stringBody [] rest).map fun (raw, r) => (.string raw, r)
  | 0x6e :: 0x75 :: 0x6c :: 0x6c :: rest => some (.scalar .null, rest)
  | 0x74 :: 0x72 :: 0x75 :: 0x65 :: rest => some (.scalar (.bool true), rest)
  | 0x66 :: 0x61 :: 0x6c :: 0x73 :: 0x65 :: rest => some (.scalar (.bool false), rest)
  | _ => (number? b).map fun (n, r) => (.scalar (.number n), r)

/-- The tokens of a text, at most `fuel` of them; `done` holds those read, last one first. -/
def lexInto (done : List JsonToken) : Nat → Bytes → Option (List JsonToken)
  | 0, _ => none
  | fuel + 1, b =>
      match b.dropWhile isBlank with
      | [] => some done.reverse
      | c :: r =>
          match next? (c :: r) with
          | some (t, rest) => lexInto (t :: done) fuel rest
          | none => none

/-- The tokens of a text. Every token takes at least one byte. -/
def lex (b : Bytes) : Option (List JsonToken) := lexInto [] (b.length + 1) b

end JsonToken

end PathForecast
