import PathForecast.Toml.Scalar

/-!
# Reading TOML

Values, and the three kinds of line that give a file its structure: a header, a header in double
brackets, and a key with its value. Nested arrays and inline tables may be `maxDepth` deep, and a
key may have as many parts.
-/

set_option autoImplicit false

namespace PathForecast

namespace Toml

/-- How deep arrays and inline tables may be nested, and how many parts a key may have. -/
def maxDepth : Nat := 80

/-! ## Keys -/

/-- One part of a key. -/
def keyPart? (cs : List Char) : Option (String × List Char) :=
  match cs with
  | '"' :: _ => shortString? cs
  | '\'' :: _ => shortString? cs
  | _ =>
      let part := cs.takeWhile isBareKey
      if part.isEmpty then none else some (String.ofList part, cs.drop part.length)

/-- The parts of a key, `count` at most, joined by points with spaces around them. -/
def keyParts? : Nat → List Char → Option (List String × List Char)
  | 0, _ => none
  | count + 1, cs => do
      let (part, r) ← keyPart? (skipSpace cs)
      let r := skipSpace r
      match r with
      | '.' :: r => do
          let (parts, r) ← keyParts? count r
          return (part :: parts, r)
      | _ => return ([part], r)

/-- A key with the spaces around it. -/
def key? (cs : List Char) : Option (List String × List Char) := keyParts? maxDepth cs

/-! ## Tables from dotted keys -/

/-- Adds a value under a key, creating the tables of the parts before the last. The key may lead
through tables that were implied or begun by dotted keys; from then on they count as begun by dotted
keys. It may also lead through the last table of an array of tables, but not end in it. -/
def insertDotted (v : TomlValue) : List String → TomlTable → Option TomlTable
  | [], _ => none
  | [k], t => if (t.get? k).isSome then none else some (t.set k v)
  | k :: l :: ks, t =>
      match t.get? k with
      | none => (insertDotted v (l :: ks) []).map fun sub => t.set k (.table .dotted sub)
      | some (.table origin sub) =>
          if origin = .dotted ∨ origin = .implied then
            (insertDotted v (l :: ks) sub).map fun sub => t.set k (.table .dotted sub)
          else none
      | some (.tables (last :: others)) =>
          if ks = [] then none
          else (insertDotted v (l :: ks) last).map fun last => t.set k (.tables (last :: others))
      | some _ => none

/-! ## Values -/

/-- A comment up to the end of the line, or nothing. -/
def comment? (cs : List Char) : Option (List Char) :=
  match cs with
  | '#' :: r => some (r.dropWhile isPlain)
  | _ => some cs

/-- Skips spaces, comments and line breaks inside an array or an inline table. -/
def skipBlank : Nat → List Char → Option (List Char)
  | 0, _ => none
  | fuel + 1, cs =>
      match comment? (skipSpace cs) with
      | none => none
      | some r =>
          match newline? r with
          | some r => skipBlank fuel r
          | none =>
              match skipSpace cs with
              | '#' :: _ => if r.isEmpty then some [] else none
              | r => some r

mutual

/-- A value at the front. `depth` is how much deeper it may be nested. -/
def value? (depth : Nat) : Nat → List Char → Option (TomlValue × List Char)
  | 0, _ => none
  | fuel + 1, cs =>
      match cs with
      | '[' :: r => if depth = 0 then none else items? (depth - 1) [] fuel r
      | '{' :: r => if depth = 0 then none else fields? (depth - 1) [] fuel r
      | '"' :: _ => (string? cs).map fun (s, r) => (.string s, r)
      | '\'' :: _ => (string? cs).map fun (s, r) => (.string s, r)
      | _ =>
          let (word, r) := takeWord cs
          (word? word).map fun v => (v, r)

/-- The rest of an array; `done` holds the items read, last one first. -/
def items? (depth : Nat) (done : List TomlValue) : Nat → List Char →
    Option (TomlValue × List Char)
  | 0, _ => none
  | fuel + 1, cs => do
      let r ← skipBlank (cs.length + 1) cs
      match r with
      | ']' :: r => return (.array done.reverse, r)
      | _ =>
          let (v, r) ← value? depth fuel r
          let r ← skipBlank (r.length + 1) r
          match r with
          | ',' :: r => items? depth (v :: done) fuel r
          | ']' :: r => return (.array (v :: done).reverse, r)
          | _ => none

/-- The rest of an inline table; `done` holds the entries read. Lines may be broken anywhere but
inside a key. -/
def fields? (depth : Nat) (done : TomlTable) : Nat → List Char → Option (TomlValue × List Char)
  | 0, _ => none
  | fuel + 1, cs => do
      let r ← skipBlank (cs.length + 1) cs
      match r with
      | '}' :: r => return (.table .inline done, r)
      | _ =>
          let (path, r) ← key? r
          match ← skipBlank (r.length + 1) r with
          | '=' :: r =>
              let r ← skipBlank (r.length + 1) r
              let (v, r) ← value? depth fuel r
              let table ← insertDotted v path done
              let r ← skipBlank (r.length + 1) r
              match r with
              | ',' :: r => fields? depth table fuel r
              | '}' :: r => return (.table .inline table, r)
              | _ => none
          | _ => none

end

/-! ## Lines -/

/-- A line that gives the file its structure. -/
inductive TomlLine where
  | header (path : List String)
  | tablesHeader (path : List String)
  | entry (path : List String) (value : TomlValue)

/-- The line at the front, up to its comment. -/
def line? (cs : List Char) : Option (TomlLine × List Char) :=
  match cs with
  | '[' :: '[' :: r => do
      let (path, r) ← key? r
      match r with
      | ']' :: ']' :: r => return (.tablesHeader path, r)
      | _ => none
  | '[' :: r => do
      let (path, r) ← key? r
      match r with
      | ']' :: r => return (.header path, r)
      | _ => none
  | _ => do
      let (path, r) ← key? cs
      match r with
      | '=' :: r =>
          let r := skipSpace r
          let (v, r) ← value? maxDepth (2 * r.length + 2) r
          return (.entry path v, r)
      | _ => none

/-- The lines of a file; `done` holds those read, last one first. -/
def lines? (done : List TomlLine) : Nat → List Char → Option (List TomlLine)
  | 0, _ => none
  | fuel + 1, cs => do
      let r := skipSpace cs
      let (done, r) ←
        if r.isEmpty ∨ r.head? = some '#' ∨ (newline? r).isSome then some (done, r)
        else (line? r).map fun (l, r) => (l :: done, r)
      let r ← comment? (skipSpace r)
      match newline? r with
      | some r => lines? done fuel r
      | none => if r.isEmpty then some done.reverse else none

end Toml

end PathForecast
