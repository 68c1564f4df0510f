import PathForecast.Json.Writer
import PathForecast.Report.Columns
import PathForecast.Workload

/-!
# Build reports

What a build tells about the models that it has written: a line for each and a line of totals, or
the same as JSON.
-/

set_option autoImplicit false

namespace PathForecast

/-- One model that was written to a file. -/
structure WrittenModel where
  procedureName : String
  learned : Nat
  rejected : Nat
  vertices : Nat
  edges : Nat
  path : String

namespace WrittenModel

open Report

def line (m : WrittenModel) : String :=
  alignLeft 24 m.procedureName ++ " learned " ++ alignRight 8 (toString m.learned) ++
    "  rejected " ++ alignRight 6 (toString m.rejected) ++
    "  vertices " ++ alignRight 6 (toString m.vertices) ++
    "  edges " ++ alignRight 6 (toString m.edges) ++ "  -> " ++ m.path

open JsonValue in
def toJson (m : WrittenModel) : JsonValue :=
  ofFields [("procedure", ofText m.procedureName), ("learned", ofNat m.learned),
    ("rejected", ofNat m.rejected), ("vertices", ofNat m.vertices), ("edges", ofNat m.edges),
    ("path", ofText m.path)]

end WrittenModel

/-- The models of a build with the totals over its workload. -/
structure BuildReport where
  models : List WrittenModel
  learned : Nat
  rejected : Nat
  orphaned : Nat

namespace BuildReport

def lines (r : BuildReport) : List String :=
  let skipped := s!"{r.rejected} rejected, {r.orphaned} for unknown procedures"
  r.models.map (·.line) ++ ["", s!"Learned {r.learned} traces ({skipped})"]

open JsonValue in
def toJson (r : BuildReport) : JsonValue :=
  ofFields [("learned", ofNat r.learned), ("rejected", ofNat r.rejected),
    ("orphaned", ofNat r.orphaned), ("models", .array (r.models.map WrittenModel.toJson))]

end BuildReport

end PathForecast
