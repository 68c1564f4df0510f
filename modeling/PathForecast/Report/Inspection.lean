import PathForecast.Decimal.Text
import PathForecast.Report.Columns
import PathForecast.Snapshot.Json

/-!
# Inspection reports

A summary of one snapshot as text, with a line for each vertex on request, or as JSON.
-/

set_option autoImplicit false

namespace PathForecast

/-- The partitions in braces. -/
def PartitionSet.braces (s : PartitionSet) : String :=
  "\x7b" ++ ",".intercalate (s.ids.map fun p => toString p.number) ++ "\x7d"

open Report in
/-- One vertex in a line. -/
def SnapshotVertex.line (v : SnapshotVertex Binary64) : String :=
  let statement := (v.statement.map fun s => s!"stmt {s.number}#{v.index}").getD ""
  let remaining := (v.averageRemaining.map fun t => t.fixed 1).getD "-"
  "  v" ++ alignLeft 5 (toString v.id.number) ++ " " ++ alignLeft 6 v.kind.label ++ " " ++
    alignLeft 14 statement ++ " parts " ++ alignLeft 10 v.partitions.braces ++ " past " ++
    alignLeft 10 v.past.braces ++ " hits " ++ alignRight 8 (toString v.totalHits) ++
    "  abort " ++ v.forecast.abort.fixed 3 ++ "  single " ++ v.forecast.singlePartition.fixed 3 ++
    "  remaining " ++ remaining

namespace Snapshot

/-- The forecast at the start of a transaction. -/
def startLines (f : Forecast Binary64) : List String :=
  ["", "From start:", "  Abort:            " ++ f.abort.fixed 4,
    "  Single partition: " ++ f.singlePartition.fixed 4,
    "  No new partition: " ++ f.noNewPartitions.fixed 4]

def lines (s : Snapshot Binary64) (verbose : Bool) : List String :=
  [s!"Procedure {s.procedureName} ({s.procedure.label})", "==================",
    s!"Transactions:   {s.transactionCount}", s!"Recomputes:     {s.recomputeCount}",
    s!"Vertices:       {s.vertices.length} ({s.queryVertexCount} query)",
    s!"Edges:          {s.edges.length}", "Partitions:     " ++ s.partitions.braces] ++
    (s.startForecast?.map startLines).getD [] ++
    (if verbose then "" :: s.vertices.map (·.line) else [])

open JsonValue in
def summaryToJson (s : Snapshot Binary64) : JsonValue :=
  ofFields [("procedure", ofText s.procedureName),
    ("transactions", ofNat s.transactionCount.toNat),
    ("recomputes", ofNat s.recomputeCount.toNat), ("vertices", ofNat s.vertices.length),
    ("query_vertices", ofNat s.queryVertexCount), ("edges", ofNat s.edges.length),
    ("partitions", s.partitions.toJson), ("start", optional Forecast.toJson s.startForecast?)]

end Snapshot

end PathForecast
