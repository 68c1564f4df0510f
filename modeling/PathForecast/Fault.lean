import PathForecast.Fault.Data
import PathForecast.Fault.File
import PathForecast.Violation

/-!
# Faults

Why an operation was refused. `message` holds the wording of every cause.
-/

set_option autoImplicit false

namespace PathForecast

/-- The causes of failure. -/
inductive Fault where
  /-- The graph has no markers yet. -/
  | notInitialized (procedure : ProcedureId)
  /-- A trace was given to the graph of another procedure. -/
  | procedureMismatch (expected found : ProcedureId)
  /-- A query runs a statement that the procedure does not declare. -/
  | unknownStatement (procedure : ProcedureId) (statement : StatementId)
  /-- A trace has more queries than one may have. -/
  | traceTooLong (queries : Nat)
  /-- The estimate for a query holds no partition. -/
  | emptyPartitionSet (statement : StatementId)
  /-- The estimator could not place a transaction or a query. -/
  | estimation (detail : String)
  | vertexNotFound (vertex : VertexId)
  | edgeNotFound (edge : EdgeId)
  /-- The audit found a violation. -/
  | invalidGraph (violation : Violation Float)
  /-- Data could not be read or written in its format. -/
  | serialization (cause : DataFault)
  /-- The file system refused. -/
  | io (cause : FileFault)

/-- The fault in words. -/
def Fault.message : Fault → String
  | .notInitialized p => s!"Graph for procedure {p.label} is not initialized"
  | .procedureMismatch expected found =>
      s!"Trace for procedure {found.label} fed to graph of procedure {expected.label}"
  | .unknownStatement p s => s!"Statement {s.label} is not part of procedure {p.label}"
  | .traceTooLong n => s!"Trace has {n} queries, exceeding the per-trace limit"
  | .emptyPartitionSet s => s!"Partition estimate for statement {s.label} is empty"
  | .estimation detail => "Partition estimation failed: " ++ detail
  | .vertexNotFound v => s!"Vertex not found: {v.label}"
  | .edgeNotFound e => s!"Edge not found: {e.label}"
  | .invalidGraph v => "Invalid graph: " ++ v.message
  | .serialization cause => "Serialization error: " ++ cause.message
  | .io cause => "I/O error: " ++ cause.message

end PathForecast
