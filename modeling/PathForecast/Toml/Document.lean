import PathForecast.Toml.Reader

/-!
# TOML documents

The table that the lines of a file describe. Headers open tables: a header may open a table that
was only implied so far, but none twice and none that dotted keys or braces have made. A header in
double brackets appends a table to an array of tables.
-/

set_option autoImplicit false

namespace PathForecast

namespace Toml

/-- Changes the table at a path of headers, creating implied tables on the way. In an array of
tables the path goes through the last one. -/
def descend (change : TomlTable → Option TomlTable) : List String → TomlTable → Option TomlTable
  | [], t => change t
  | k :: ks, t =>
      match t.get? k with
      | none => (descend change ks []).map fun sub => t.set k (.table .implied sub)
      | some (.table origin sub) =>
          if origin = .inline then none
          else (descend change ks sub).map fun sub => t.set k (.table origin sub)
      | some (.tables (last :: others)) =>
          (descend change ks last).map fun last => t.set k (.tables (last :: others))
      | some _ => none

/-- Opens the table of a header. -/
def openTable (k : String) (t : TomlTable) : Option TomlTable :=
  match t.get? k with
  | none => some (t.set k (.table .header []))
  | some (.table .implied sub) => some (t.set k (.table .header sub))
  | some _ => none

/-- Appends a table to an array of tables. -/
def appendTable (k : String) (t : TomlTable) : Option TomlTable :=
  match t.get? k with
  | none => some (t.set k (.tables [[]]))
  | some (.tables ts) => some (t.set k (.tables ([] :: ts)))
  | some _ => none

/-- Changes the table that the parents of a path lead to, at the last part of the path. -/
def atPath (change : String → TomlTable → Option TomlTable) (path : List String)
    (root : TomlTable) : Option TomlTable :=
  match path.getLast? with
  | some k => descend (change k) path.dropLast root
  | none => none

/-- Takes in one line: the file so far and the path of the open table. -/
def addLine (state : TomlTable × List String) (line : TomlLine) :
    Option (TomlTable × List String) :=
  let (root, current) := state
  match line with
  | .header path => (atPath openTable path root).map fun root => (root, path)
  | .tablesHeader path => (atPath appendTable path root).map fun root => (root, path)
  | .entry path v => (descend (insertDotted v path) current root).map fun root => (root, current)

/-- The table that a text describes. A byte order mark in front is skipped. -/
def parse? (text : String) : Option TomlTable := do
  let cs := text.toList
  let cs := if cs.head? = some '\ufeff' then cs.drop 1 else cs
  let lines ← lines? [] (cs.length + 1) cs
  let (root, _) ← lines.foldlM addLine ([], [])
  return root

end Toml

end PathForecast
