import PathForecast.Bytes

/-!
# JSON values

A JSON value keeps its numbers and strings as they are spelled: a string is the bytes between its
quotes, escapes included, and a number is its literal. What the spelling means is asked only where
a value is used, so whatever a reader ignores is held to the syntax alone. Objects keep the order
and the repetitions of their fields.
-/

set_option autoImplicit false

namespace PathForecast

/-- A value as it is spelled. -/
inductive JsonValue where
  | null
  | bool (b : Bool)
  | number (literal : Bytes)
  | string (raw : Bytes)
  | array (items : List JsonValue)
  | object (fields : List (Bytes × JsonValue))

namespace JsonValue

/-! ## Characters of the syntax -/

def quote : UInt8 := 0x22

def backslash : UInt8 := 0x5c

def isDigit (b : UInt8) : Bool := 0x30 ≤ b && b ≤ 0x39

def digitValue (b : UInt8) : Nat := b.toNat - 0x30

/-- Space, tab, line feed and carriage return. -/
def isBlank (b : UInt8) : Bool := b == 0x20 || b == 0x09 || b == 0x0a || b == 0x0d

/-- The value of a hexadecimal digit of either case. -/
def hexValue? (b : UInt8) : Option Nat :=
  if 0x30 ≤ b && b ≤ 0x39 then some (b.toNat - 0x30)
  else if 0x41 ≤ b && b ≤ 0x46 then some (b.toNat - 0x37)
  else if 0x61 ≤ b && b ≤ 0x66 then some (b.toNat - 0x57)
  else none

end JsonValue

end PathForecast
