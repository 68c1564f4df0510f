import PathForecast.Fault
import PathForecast.Snapshot.Binary
import PathForecast.Snapshot.Json

/-!
# Snapshot files

The two formats of a snapshot file and the name under which a procedure's snapshot is stored. A
name keeps the letters, digits, `_` and `-` of the procedure's name, has `_` for everything else,
and ends in the procedure's id, so that names of different procedures differ. A reader takes files
that begin with the letters of the binary format for binary and all others for JSON.
-/

set_option autoImplicit false

namespace PathForecast

inductive SnapshotFormat where
  | json
  | binary
deriving DecidableEq

namespace SnapshotFormat

def parse (name : String) : Option SnapshotFormat :=
  if name = "json" then some .json else if name = "binary" then some .binary else none

def fileExtension : SnapshotFormat → String
  | .json => "json"
  | .binary => "txnp"

/-- The content of a file in this format. -/
def encode (format : SnapshotFormat) (s : Snapshot Binary64) : Bytes :=
  match format with
  | .json => s.toJson.pretty
  | .binary => s.toBinary

end SnapshotFormat

/-- The snapshot that a file holds. -/
def Snapshot.ofFile (content : Bytes) : Except Fault (Snapshot Binary64) :=
  if magic.isPrefixOf content then
    match ofBinary content with
    | .ok s => .ok s
    | .error f => .error (.serialization (.binary f))
  else
    match (JsonValue.parse? content).bind ofJson? with
    | some s => .ok s
    | none => .error (.serialization (.malformed .snapshot))

/-- Whether a character of a procedure's name is kept in a file name. -/
def isPlainChar (c : Char) : Bool := c.isAlphanum || c == '_' || c == '-'

/-- The file name of a procedure's snapshot. -/
def snapshotFileName (procedure : ProcedureId) (name : String) (format : SnapshotFormat) : String :=
  String.ofList (name.toList.map fun c => if isPlainChar c then c else '_') ++ "-" ++
    String.ofList (Decimal.digitsOf procedure.number.toNat) ++ "." ++ format.fileExtension

end PathForecast
