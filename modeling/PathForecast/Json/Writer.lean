import PathForecast.Decimal.Text
import PathForecast.Json.Quoted

/-!
# Writing JSON

`compact` writes a value without blanks, `pretty` with one item or field to a line, two more
spaces for each level and nothing between the brackets of an empty array or object.
-/

set_option autoImplicit false

namespace PathForecast

namespace JsonValue

/-! ## Scalars -/

def ofNat (n : Nat) : JsonValue :=
  .number ((Decimal.digitsOf n).map fun c => c.toNat.toUInt8)

def ofText (s : String) : JsonValue := .string (escape s)

def optional {β : Type} (f : β → JsonValue) : Option β → JsonValue
  | none => .null
  | some x => f x

/-- Floats are positional for first digits from `10 ^ -5` to `10 ^ 15`. -/
def floatFormat : Decimal.Format := ⟨-5, 15, .toEven⟩

/-- The shortest digits of a float; NaN and the infinities are `null`. -/
def ofBinary64 (x : Binary64) : JsonValue :=
  match x.scientific floatFormat with
  | some text => .number (text.map fun c => c.toNat.toUInt8)
  | none => .null

/-- An object of named fields. -/
def ofFields (fields : List (String × JsonValue)) : JsonValue :=
  .object (fields.map fun f => (escape f.1, f.2))

/-! ## Text -/

def quoted (raw : Bytes) : Bytes := quote :: raw ++ [quote]

def literalBytes (b : Bool) : Bytes := Bytes.ofText (if b then "true" else "false")

mutual

/-- The text of a value without blanks. -/
def compact : JsonValue → Bytes
  | .null => Bytes.ofText "null"
  | .bool b => literalBytes b
  | .number literal => literal
  | .string raw => quoted raw
  | .array items => 0x5b :: compactItems items ++ [0x5d]
  | .object fields => 0x7b :: compactFields fields ++ [0x7d]

def compactItems : List JsonValue → Bytes
  | [] => []
  | [v] => compact v
  | v :: vs => compact v ++ 0x2c :: compactItems vs

def compactFields : List (Bytes × JsonValue) → Bytes
  | [] => []
  | [(k, v)] => quoted k ++ 0x3a :: compact v
  | (k, v) :: fs => quoted k ++ 0x3a :: compact v ++ 0x2c :: compactFields fs

end

/-- A line break and the indentation of a level. -/
def newLine (level : Nat) : Bytes := 0x0a :: List.replicate (2 * level) 0x20

mutual

/-- The text of a value in lines, its own lines indented by `level`. -/
def prettyAt (level : Nat) : JsonValue → Bytes
  | .null => Bytes.ofText "null"
  | .bool b => literalBytes b
  | .number literal => literal
  | .string raw => quoted raw
  | .array items =>
      if items.isEmpty then [0x5b, 0x5d]
      else 0x5b :: newLine (level + 1) ++ prettyItems (level + 1) items ++ newLine level ++ [0x5d]
  | .object fields =>
      if fields.isEmpty then [0x7b, 0x7d]
      else
        0x7b :: newLine (level + 1) ++ prettyFields (level + 1) fields ++ newLine level ++ [0x7d]

def prettyItems (level : Nat) : List JsonValue → Bytes
  | [] => []
  | [v] => prettyAt level v
  | v :: vs => prettyAt level v ++ 0x2c :: newLine level ++ prettyItems level vs

def prettyFields (level : Nat) : List (Bytes × JsonValue) → Bytes
  | [] => []
  | [(k, v)] => quoted k ++ 0x3a :: 0x20 :: prettyAt level v
  | (k, v) :: fs =>
      quoted k ++ 0x3a :: 0x20 :: prettyAt level v ++ 0x2c :: newLine level ++ prettyFields level fs

end

/-- The text of a value in lines. -/
def pretty (v : JsonValue) : Bytes := prettyAt 0 v

end JsonValue

end PathForecast
