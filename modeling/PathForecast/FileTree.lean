import PathForecast.Host

/-!
# File trees

A file system held as a value: the directories and files below a root, each under the list of names
that leads to it. Paths are walked from the home directory, or from the root when they begin with a
slash. A name that is empty or a single point stays, two points go up, and every other name has to
stand in the directory reached so far.
-/

set_option autoImplicit false

namespace PathForecast

/-- The names on the way from the root to a place. -/
abbrev Place := List String

/-- A file system. -/
structure FileTree where
  /-- The directory that relative paths begin at. -/
  home : Place
  directories : List Place
  files : List (Place × Bytes)

namespace FileTree

/-! ## Paths -/

/-- The names of a path, empty ones included. -/
def names (path : String) : List String := (path.toList.splitOn '/').map String.ofList

def isAbsolute (path : String) : Bool := path.toList.head? = some '/'

/-- The path that leads to a place from anywhere. -/
def absolutePath (p : Place) : String := "/" ++ "/".intercalate p

/-- The longest name and the longest path, in bytes. -/
def maxName : Nat := 255

def maxPath : Nat := 4095

def isValidName (name : String) : Bool :=
  decide (name.utf8ByteSize ≤ maxName) && !name.toList.contains '\x00'

/-! ## Looking up -/

def isDirectory (t : FileTree) (p : Place) : Bool := p.isEmpty || t.directories.contains p

def file? (t : FileTree) (p : Place) : Option Bytes := t.files.lookup p

/-- Goes from a directory along names; the last name may be a file's. -/
def walk (t : FileTree) : Place → List String → Except String Place
  | p, [] => .ok p
  | p, n :: ns =>
      if !t.isDirectory p then .error "Not a directory"
      else if n = "" ∨ n = "." then walk t p ns
      else if n = ".." then walk t p.dropLast ns
      else if !isValidName n then .error "Invalid file name"
      else
        let q := p ++ [n]
        if t.isDirectory q || (t.file? q).isSome then walk t q ns
        else .error "No such file or directory"

/-- The place that a path leads to. -/
def locate (t : FileTree) (path : String) : Except String Place :=
  if path = "" then .error "No such file or directory"
  else if maxPath < path.utf8ByteSize then .error "File name too long"
  else t.walk (if isAbsolute path then [] else t.home) (names path)

def info (t : FileTree) (path : String) : Except String FileInfo := do
  let p ← t.locate path
  match t.file? p with
  | some content => return .regular content.length
  | none => return .other

def read (t : FileTree) (path : String) : Except String Bytes := do
  let p ← t.locate path
  match t.file? p with
  | some content => return content
  | none => throw "Is a directory"

def resolve (t : FileTree) (path : String) : Except String String := absolutePath <$> t.locate path

/-! ## Changing -/

/-- The place that a new entry would have: a name in a directory that exists. -/
def newPlace (t : FileTree) (path : String) : Except String Place := do
  if maxPath < path.utf8ByteSize then throw "File name too long"
  let ns := names path
  let parent ← t.walk (if isAbsolute path then [] else t.home) ns.dropLast
  match ns.getLast? with
  | none => throw "No such file or directory"
  | some n =>
      if !t.isDirectory parent then throw "Not a directory"
      if n = "" ∨ n = "." ∨ n = ".." then throw "Is a directory"
      if !isValidName n then throw "Invalid file name"
      return parent ++ [n]

def write (t : FileTree) (path : String) (content : Bytes) : Except String FileTree := do
  let p ← t.newPlace path
  if t.isDirectory p then throw "Is a directory"
  return { t with files := (p, content) :: t.files.filter fun f => f.1 != p }

/-- A path without the slashes at its end. -/
def trimSlashes (path : String) : String :=
  String.ofList (path.toList.reverse.dropWhile (· == '/')).reverse

/-- Creates one directory, unless it is there. -/
def createDirectory (t : FileTree) (path : String) : Except String FileTree :=
  match t.locate path with
  | .ok p => if t.isDirectory p then .ok t else .error "File exists"
  | .error _ => do
      let p ← t.newPlace (trimSlashes path)
      if t.isDirectory p || (t.file? p).isSome then throw "File exists"
      return { t with directories := p :: t.directories }

/-- The paths of the directories above a path, the highest first, and the path itself. Empty names
and single points make no directory of their own. -/
def lineage (path : String) : List String :=
  let ns := names path
  let proper := (List.range ns.length).filter fun i => ns[i]? != some "" && ns[i]? != some "."
  (proper.map fun i => "/".intercalate (ns.take (i + 1))).dropLast ++ [path]

/-- Creates the directories of a path from the highest down. -/
def createDirectories (t : FileTree) (path : String) : Except String FileTree :=
  (lineage path).foldlM createDirectory t

/-- A tree with a home directory and nothing in it. -/
def ofHome (home : Place) : FileTree where
  home
  directories := (List.range home.length).map fun i => home.take (i + 1)
  files := []

end FileTree

end PathForecast
