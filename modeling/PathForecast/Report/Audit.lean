import PathForecast.Graph.Audit
import PathForecast.Json.Writer
import PathForecast.Report.Columns
import PathForecast.Workload

/-!
# Audit reports

The verdict on each model of a workload, as text or as JSON.
-/

set_option autoImplicit false

namespace PathForecast

/-- A procedure with the violation that the audit of its graph found first, if it found one. -/
structure Verdict where
  procedureName : String
  violation : Option (Violation Float)

namespace Verdict

/-- The verdict on a model. -/
def ofModel (m : ProcedureModel Float) : Verdict := ⟨m.graph.procedure.name, m.graph.violation?⟩

open Report in
def line (v : Verdict) : String :=
  alignLeft 24 v.procedureName ++
    match v.violation with
    | none => " ok"
    | some x => " INVALID: " ++ x.message

open JsonValue in
def toJson (v : Verdict) : JsonValue :=
  ofFields [("procedure", ofText v.procedureName), ("valid", .bool v.violation.isNone),
    ("error", optional (fun x => ofText x.message) v.violation)]

end Verdict

end PathForecast
