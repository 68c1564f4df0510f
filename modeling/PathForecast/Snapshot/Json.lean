import PathForecast.Json.Fields
import PathForecast.Json.Reader
import PathForecast.Json.Writer
import PathForecast.Snapshot
import PathForecast.Trace.Json

/-!
# Snapshots as JSON

The fields of a snapshot in order. The kind of a vertex is its name, and the partitions that are
done are an object whose keys are the decimal partition numbers.
-/

set_option autoImplicit false

namespace PathForecast

open JsonValue

/-! ## Writing -/

def VertexKind.fileName : VertexKind → String
  | .start => "Start"
  | .query => "Query"
  | .commit => "Commit"
  | .abort => "Abort"

def Forecast.toJson (f : Forecast Binary64) : JsonValue :=
  ofFields [("abort", ofBinary64 f.abort), ("single_partition", ofBinary64 f.singlePartition),
    ("no_new_partitions", ofBinary64 f.noNewPartitions),
    ("done", .object (f.done.entries.map fun e =>
      ((Decimal.digitsOf e.1.number.toNat).map fun c => c.toNat.toUInt8, ofBinary64 e.2)))]

def SnapshotVertex.toJson (v : SnapshotVertex Binary64) : JsonValue :=
  ofFields [("id", ofNat v.id.number.toNat), ("element_id", ofNat v.element.number.toNat),
    ("kind", ofText v.kind.fileName),
    ("statement", optional (fun s => ofNat s.number.toNat) v.statement),
    ("instance_index", ofNat v.index.toNat), ("partitions", v.partitions.toJson),
    ("past_partitions", v.past.toJson), ("total_hits", ofNat v.totalHits.toNat),
    ("instance_hits", ofNat v.windowHits.toNat),
    ("average_remaining_time", optional ofBinary64 v.averageRemaining),
    ("probabilities", v.forecast.toJson)]

def SnapshotEdge.toJson (e : SnapshotEdge Binary64) : JsonValue :=
  ofFields [("id", ofNat e.id.number.toNat), ("element_id", ofNat e.element.number.toNat),
    ("source", ofNat e.source.number.toNat), ("dest", ofNat e.dest.number.toNat),
    ("total_hits", ofNat e.totalHits.toNat), ("instance_hits", ofNat e.windowHits.toNat),
    ("probability", ofBinary64 e.probability)]

def Snapshot.toJson (s : Snapshot Binary64) : JsonValue :=
  ofFields [("procedure", ofNat s.procedure.number.toNat),
    ("procedure_name", ofText s.procedureName),
    ("transaction_count", ofNat s.transactionCount.toNat),
    ("recompute_count", ofNat s.recomputeCount.toNat),
    ("vertices", .array (s.vertices.map SnapshotVertex.toJson)),
    ("edges", .array (s.edges.map SnapshotEdge.toJson))]

/-! ## Reading -/

def VertexKind.ofFileName? (name : String) : Option VertexKind :=
  [VertexKind.start, .query, .commit, .abort].find? fun k => decide (k.fileName = name)

/-- A kind is its name, or an object that gives the name the value `null`. -/
def VertexKind.ofJson? : JsonValue → Option VertexKind
  | .string raw => (unescape raw).bind ofFileName?
  | .object [(key, .null)] => (unescape key).bind ofFileName?
  | _ => none

/-- A partition number as a key: a numeral and nothing else. -/
def PartitionId.ofKey? (key : Bytes) : Option PartitionId := do
  let (digits, rest) ← JsonToken.whole? key
  if rest ≠ [] then none
  let n ← uint32? (.number digits)
  return ⟨n⟩

/-- Of repeated partitions the last entry counts. -/
def doneOfJson? : JsonValue → Option (Table PartitionId Binary64)
  | .object fields => do
      let entries ← fields.mapM fun f => do
        let p ← PartitionId.ofKey? f.1
        let x ← binary64? f.2
        return (p, x)
      return .ofList entries
  | _ => none

def Forecast.ofJson? (v : JsonValue) : Option (Forecast Binary64) := do
  match ← v.record? ["abort", "single_partition", "no_new_partitions", "done"] with
  | [abort, single, noNew, done] =>
      let abort ← required? binary64? abort
      let single ← required? binary64? single
      let noNew ← required? binary64? noNew
      let done ← required? doneOfJson? done
      return ⟨abort, single, noNew, done⟩
  | _ => none

def SnapshotVertex.ofJson? (v : JsonValue) : Option (SnapshotVertex Binary64) := do
  match ← v.record? ["id", "element_id", "kind", "statement", "instance_index", "partitions",
      "past_partitions", "total_hits", "instance_hits", "average_remaining_time",
      "probabilities"] with
  | [id, element, kind, statement, index, partitions, past, total, window, average, forecast] =>
      let id ← required? uint32? id
      let element ← required? uint64? element
      let kind ← required? VertexKind.ofJson? kind
      let statement ← optional? uint32? statement
      let index ← required? uint32? index
      let partitions ← required? PartitionSet.ofJson? partitions
      let past ← required? PartitionSet.ofJson? past
      let total ← required? uint64? total
      let window ← required? uint64? window
      let average ← optional? binary64? average
      let forecast ← required? Forecast.ofJson? forecast
      return ⟨⟨id⟩, ⟨element⟩, kind, statement.map .mk, index, partitions, past, total, window,
        average, forecast⟩
  | _ => none

def SnapshotEdge.ofJson? (v : JsonValue) : Option (SnapshotEdge Binary64) := do
  match ← v.record? ["id", "element_id", "source", "dest", "total_hits", "instance_hits",
      "probability"] with
  | [id, element, source, dest, total, window, probability] =>
      let id ← required? uint32? id
      let element ← required? uint64? element
      let source ← required? uint32? source
      let dest ← required? uint32? dest
      let total ← required? uint64? total
      let window ← required? uint64? window
      let probability ← required? binary64? probability
      return ⟨⟨id⟩, ⟨element⟩, ⟨source⟩, ⟨dest⟩, total, window, probability⟩
  | _ => none

def Snapshot.ofJson? (v : JsonValue) : Option (Snapshot Binary64) := do
  match ← v.record? ["procedure", "procedure_name", "transaction_count", "recompute_count",
      "vertices", "edges"] with
  | [procedure, name, transactions, recomputes, vertices, edges] =>
      let procedure ← required? uint32? procedure
      let name ← required? text? name
      let transactions ← required? uint64? transactions
      let recomputes ← required? uint64? recomputes
      let vertices ← required? (list? SnapshotVertex.ofJson?) vertices
      let edges ← required? (list? SnapshotEdge.ofJson?) edges
      return ⟨⟨procedure⟩, name, transactions, recomputes, vertices, edges⟩
  | _ => none

end PathForecast
