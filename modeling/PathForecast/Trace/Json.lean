import PathForecast.Json.Fields
import PathForecast.Json.Reader
import PathForecast.Json.Writer
import PathForecast.Trace

/-!
# Traces as JSON

A workload is an array of traces. The base partition of a trace and the partitions of a query are
written only when they were recorded.
-/

set_option autoImplicit false

namespace PathForecast

open JsonValue

def PartitionSet.toJson (s : PartitionSet) : JsonValue :=
  .array (s.ids.map fun p => ofNat p.number.toNat)

def PartitionSet.ofJson? (v : JsonValue) : Option PartitionSet :=
  (list? (fun p => (uint32? p).map PartitionId.mk) v).map .ofList

/-- A field that is left out when there is nothing to write. -/
def recordedField {β : Type} (name : String) (f : β → JsonValue) : Option β →
    List (String × JsonValue)
  | none => []
  | some x => [(name, f x)]

def QueryTrace.toJson (q : QueryTrace) : JsonValue :=
  ofFields ([("statement", ofNat q.statement.number.toNat),
    ("start_timestamp", ofNat q.start.toNat), ("stop_timestamp", ofNat q.stop.toNat)] ++
    recordedField "partitions" PartitionSet.toJson q.partitions)

def TransactionTrace.toJson (t : TransactionTrace) : JsonValue :=
  ofFields ([("txn_id", ofNat t.txn.number.toNat), ("procedure", ofNat t.procedure.number.toNat),
    ("start_timestamp", ofNat t.start.toNat), ("stop_timestamp", ofNat t.stop.toNat),
    ("aborted", .bool t.aborted)] ++
    recordedField "base_partition" (fun p => ofNat p.number.toNat) t.basePartition ++
    [("queries", .array (t.queries.map QueryTrace.toJson))])

def QueryTrace.ofJson? (v : JsonValue) : Option QueryTrace := do
  match ← v.record? ["statement", "start_timestamp", "stop_timestamp", "partitions"] with
  | [statement, start, stop, partitions] =>
      let statement ← required? uint32? statement
      let start ← required? uint64? start
      let stop ← required? uint64? stop
      let partitions ← optional? PartitionSet.ofJson? partitions
      return ⟨⟨statement⟩, start, stop, partitions⟩
  | _ => none

def TransactionTrace.ofJson? (v : JsonValue) : Option TransactionTrace := do
  match ← v.record? ["txn_id", "procedure", "start_timestamp", "stop_timestamp", "aborted",
      "base_partition", "queries"] with
  | [txn, procedure, start, stop, aborted, base, queries] =>
      let txn ← required? uint64? txn
      let procedure ← required? uint32? procedure
      let start ← required? uint64? start
      let stop ← required? uint64? stop
      let aborted ← defaulted? bool? false aborted
      let base ← optional? uint32? base
      let queries ← required? (list? QueryTrace.ofJson?) queries
      return ⟨⟨txn⟩, ⟨procedure⟩, start, stop, aborted, base.map .mk, queries⟩
  | _ => none

/-- A workload as a value. -/
def workloadToJson (ts : List TransactionTrace) : JsonValue :=
  .array (ts.map TransactionTrace.toJson)

/-- The traces that a text describes. -/
def parseWorkload? (b : Bytes) : Option (List TransactionTrace) :=
  (JsonValue.parse? b).bind (list? TransactionTrace.ofJson?)

end PathForecast
