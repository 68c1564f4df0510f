import PathForecast.Binary64

/-!
# TOML values

Values as a configuration file holds them, and the tables that are under construction while the
file is read. A table remembers how it came about, because that decides what may still be added
to it. A number that has no value is kept as such: it does no harm where nobody looks at it.
-/

set_option autoImplicit false

namespace PathForecast

/-- How a table was begun. -/
inductive TableOrigin where
  /-- As the parent of a table with a header of its own. -/
  | implied
  /-- As the parent of a dotted key. -/
  | dotted
  /-- By a header of its own, or as the file itself. -/
  | header
  /-- In braces; it is complete. -/
  | inline
deriving DecidableEq

/-- A value. -/
inductive TomlValue where
  | string (s : String)
  | integer (n : Int)
  | float (x : Binary64)
  /-- A number without a value: too large, without digits, or with letters among its digits. -/
  | unreadable
  | bool (b : Bool)
  /-- A date, a time or both; nothing in this library asks which. -/
  | datetime
  | array (items : List TomlValue)
  /-- The tables of headers in double brackets, the last one first. -/
  | tables (items : List (List (String × TomlValue)))
  | table (origin : TableOrigin) (entries : List (String × TomlValue))

mutual

/-- Whether every number in a value can be read. -/
def TomlValue.isReadable : TomlValue → Bool
  | .unreadable => false
  | .array items => itemsReadable items
  | .tables items => tablesReadable items
  | .table _ entries => entriesReadable entries
  | _ => true

def TomlValue.itemsReadable : List TomlValue → Bool
  | [] => true
  | v :: vs => v.isReadable && itemsReadable vs

def TomlValue.entriesReadable : List (String × TomlValue) → Bool
  | [] => true
  | (_, v) :: es => v.isReadable && entriesReadable es

def TomlValue.tablesReadable : List (List (String × TomlValue)) → Bool
  | [] => true
  | t :: ts => entriesReadable t && tablesReadable ts

end

/-- The entries of a table, each key once. -/
abbrev TomlTable := List (String × TomlValue)

namespace TomlTable

/-- Whether every number in the values of a table can be read. -/
def isReadable (t : TomlTable) : Bool := TomlValue.entriesReadable t

def get? (t : TomlTable) (key : String) : Option TomlValue := t.lookup key

/-- Replaces the value of a key, or appends an entry. -/
def set (t : TomlTable) (key : String) (v : TomlValue) : TomlTable :=
  if (t.get? key).isSome then t.map fun e => if e.1 == key then (key, v) else e
  else t ++ [(key, v)]

end TomlTable

end PathForecast
