import PathForecast.Json.Token

/-!
# Reading JSON

Values are put together from tokens by a machine that keeps the open arrays and objects on a
stack, so that nesting may be as deep as the text. One token makes one step.
-/

set_option autoImplicit false

namespace PathForecast

/-- An array or object that is still open around the value being read. -/
inductive JsonFrame where
  /-- The items before the value, last one first. -/
  | items (done : List JsonValue)
  /-- The fields before the value, last one first, and the key of the value. -/
  | fields (done : List (Bytes × JsonValue)) (key : Bytes)

/-- What the machine has read and what may come next. -/
inductive JsonState where
  /-- A value. -/
  | value (stack : List JsonFrame)
  /-- The first item of an array, or its end. -/
  | firstItem (stack : List JsonFrame)
  /-- A comma or the end of an array. -/
  | afterItem (done : List JsonValue) (stack : List JsonFrame)
  /-- The first key of an object, or its end. -/
  | firstKey (stack : List JsonFrame)
  /-- A key. -/
  | key (done : List (Bytes × JsonValue)) (stack : List JsonFrame)
  /-- The colon after a key. -/
  | colon (done : List (Bytes × JsonValue)) (key : Bytes) (stack : List JsonFrame)
  /-- A comma or the end of an object. -/
  | afterField (done : List (Bytes × JsonValue)) (stack : List JsonFrame)
  /-- Nothing more. -/
  | finished (value : JsonValue)

namespace JsonState

/-- Hands a complete value to the innermost open array or object. -/
def deliver (v : JsonValue) : List JsonFrame → JsonState
  | [] => .finished v
  | .items done :: stack => .afterItem (v :: done) stack
  | .fields done k :: stack => .afterField ((k, v) :: done) stack

/-- Begins a value with a token. -/
def begin? (stack : List JsonFrame) : JsonToken → Option JsonState
  | .openArray => some (.firstItem stack)
  | .openObject => some (.firstKey stack)
  | .string raw => some (deliver (.string raw) stack)
  | .scalar v => some (deliver v stack)
  | _ => none

def step : JsonState → JsonToken → Option JsonState
  | .value stack, t => begin? stack t
  | .firstItem stack, .closeArray => some (deliver (.array []) stack)
  | .firstItem stack, t => begin? (.items [] :: stack) t
  | .afterItem done stack, .comma => some (.value (.items done :: stack))
  | .afterItem done stack, .closeArray => some (deliver (.array done.reverse) stack)
  | .firstKey stack, .closeObject => some (deliver (.object []) stack)
  | .firstKey stack, .string k => some (.colon [] k stack)
  | .key done stack, .string k => some (.colon done k stack)
  | .colon done k stack, .colon => some (.value (.fields done k :: stack))
  | .afterField done stack, .comma => some (.key done stack)
  | .afterField done stack, .closeObject => some (deliver (.object done.reverse) stack)
  | _, _ => none

def run (s : JsonState) (ts : List JsonToken) : Option JsonState := ts.foldlM step s

end JsonState

namespace JsonValue

/-- The value that a sequence of tokens spells. -/
def ofTokens? (ts : List JsonToken) : Option JsonValue :=
  match JsonState.run (.value []) ts with
  | some (.finished v) => some v
  | _ => none

/-- The value that a text spells, with nothing but blanks around it. -/
def parse? (b : Bytes) : Option JsonValue := (JsonToken.lex b).bind ofTokens?

end JsonValue

end PathForecast
