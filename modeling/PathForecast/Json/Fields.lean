import PathForecast.Ids
import PathForecast.Json.Numeral
import PathForecast.Json.Quoted

/-!
# Reading records

Typed readers over JSON values. A record may be an object, whose unknown fields are ignored and
whose known fields may not be repeated, or an array of the fields in their order, of which the
last may be missing.
-/

set_option autoImplicit false

namespace PathForecast

namespace JsonValue

/-- A field that is present, or the end of the reading. -/
abbrev Field := Option JsonValue

def text? : JsonValue → Option String
  | .string raw => unescape raw
  | _ => none

def bool? : JsonValue → Option Bool
  | .bool b => some b
  | _ => none

/-- An integer below a bound. -/
def below? (bound : Nat) : JsonValue → Option Nat
  | .number literal => (Numeral.natural? literal).filter fun n => decide (n < bound)
  | _ => none

def uint32? (v : JsonValue) : Option UInt32 := (v.below? UInt32.size).map (·.toUInt32)

def uint64? (v : JsonValue) : Option UInt64 := (v.below? UInt64.size).map (·.toUInt64)

def binary64? : JsonValue → Option Binary64
  | .number literal => (Numeral.ofLiteral literal).float?.map .ofFloat
  | _ => none

def list? {β : Type} (read : JsonValue → Option β) : JsonValue → Option (List β)
  | .array items => items.mapM read
  | _ => none

/-- Either `null` or a value. -/
def nullable? {β : Type} (read : JsonValue → Option β) : JsonValue → Option (Option β)
  | .null => some none
  | v => (read v).map some

/-- The fields of an object with their names spelled out. -/
def named? (fields : List (Bytes × JsonValue)) : Option (List (String × JsonValue)) :=
  fields.mapM fun f => (unescape f.1).map fun name => (name, f.2)

/-- The field of a name, which may be missing but not repeated. -/
def field? (fields : List (String × JsonValue)) (name : String) : Option Field :=
  match fields.filter fun f => decide (f.1 = name) with
  | [] => some none
  | [f] => some (some f.2)
  | _ => none

/-- The fields of a record, in the order of the names. -/
def record? (names : List String) : JsonValue → Option (List Field)
  | .array items =>
      if items.length ≤ names.length then
        some (items.map some ++ List.replicate (names.length - items.length) none)
      else none
  | .object fields => do
      let fields ← named? fields
      names.mapM (field? fields)
  | _ => none

/-- A field that has to be there. -/
def required? {β : Type} (read : JsonValue → Option β) (f : Field) : Option β := f.bind read

/-- A field that may be missing; then it has a default value. -/
def defaulted? {β : Type} (read : JsonValue → Option β) (default : β) : Field → Option β
  | none => some default
  | some v => read v

/-- A field that may be missing or `null`. -/
def optional? {β : Type} (read : JsonValue → Option β) (f : Field) : Option (Option β) :=
  defaulted? (nullable? read) none f

end JsonValue

end PathForecast
