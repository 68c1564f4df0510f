import PathForecast.CommandLine
import PathForecast.Host.Inputs
import PathForecast.Report.Audit
import PathForecast.Report.Build
import PathForecast.Report.Inspection
import PathForecast.Snapshot.File

/-!
# Running commands

The three commands on a host. `build` learns the models of a workload and writes a snapshot of each,
`inspect` prints a summary of a snapshot file, and `validate` learns a workload and reports the
audit of every model. A command stops at the first fault; what it has written by then stays.
-/

set_option autoImplicit false

namespace PathForecast

variable {m : Type → Type} [Monad m]

/-! ## Printing -/

namespace Host

def printLines (h : Host m) (lines : List String) : ExceptT Fault m Unit :=
  lines.forM fun line => (h.print line : m Unit)

/-- Prints a value in lines. -/
def printJson (h : Host m) (v : JsonValue) : ExceptT Fault m Unit :=
  h.print ((Bytes.text? v.pretty).getD "")

/-! ## Output directories -/

/-- Creates a directory where it is missing; the answer is its absolute path. -/
def prepareDirectory (h : Host m) (path : String) : ExceptT Fault m String := do
  demand .createDirectory path (h.createDirectories path)
  demand .resolveDirectory path (h.resolve path)

/-- The path of a name in a directory. -/
def pathIn (directory name : String) : String :=
  if directory.toList.getLast? = some '/' then directory ++ name else directory ++ "/" ++ name

end Host

/-- The models of the workload that two files describe. -/
def learnFiles (h : Host m) (settings : RunSettings) (catalog workload : String) :
    ExceptT Fault m (BuildOutcome Float) := do
  let c ← h.loadCatalog catalog settings.maxFileBytes
  let traces ← h.loadWorkload workload settings.maxFileBytes
  ExceptT.mk (pure (buildModels c traces settings.model))

/-! ## Commands -/

/-- Writes the snapshot of a model into a directory. -/
def writeModel (h : Host m) (directory : String) (format : SnapshotFormat) (audited : Bool)
    (model : ProcedureModel Float) : ExceptT Fault m WrittenModel := do
  if audited then
    if let some v := model.graph.violation? then throw (.invalidGraph v)
  let s := model.graph.snapshot.stored
  let path := Host.pathIn directory (snapshotFileName s.procedure s.procedureName format)
  Host.demand .write path (h.write path (format.encode s))
  return { procedureName := s.procedureName, learned := model.learned, rejected := model.rejected
           vertices := s.vertices.length, edges := s.edges.length, path }

def runBuild (h : Host m) (settings : RunSettings) (options : GlobalOptions) (b : BuildOptions) :
    ExceptT Fault m Unit := do
  let some format := SnapshotFormat.parse b.format
    | throw (.serialization (.unknownFormat b.format))
  let directory ← h.prepareDirectory b.output
  let outcome ← learnFiles h settings b.catalog b.workload
  let models ← outcome.models.values.mapM (writeModel h directory format b.audited)
  let report : BuildReport :=
    { models, learned := outcome.learned, rejected := outcome.rejected
      orphaned := outcome.orphaned }
  if options.jsonMode then h.printJson report.toJson
  else if !options.quiet then h.printLines report.lines

def runInspect (h : Host m) (settings : RunSettings) (options : GlobalOptions) (input : String) :
    ExceptT Fault m Unit := do
  let content ← h.readBounded input settings.maxFileBytes
  let s ← ExceptT.mk (pure (Snapshot.ofFile content))
  if options.jsonMode then h.printJson s.summaryToJson
  else h.printLines (s.lines options.verbose)

def runValidate (h : Host m) (settings : RunSettings) (options : GlobalOptions)
    (catalog workload : String) : ExceptT Fault m Unit := do
  let outcome ← learnFiles h settings catalog workload
  let verdicts := outcome.models.values.map Verdict.ofModel
  if options.jsonMode then h.printJson (.array (verdicts.map Verdict.toJson))
  else if !options.quiet then h.printLines (verdicts.map (·.line))
  if let some v := verdicts.findSome? (·.violation) then throw (.invalidGraph v)

namespace CommandLine

/-- Reads the settings and runs the command; without one, says what the program is. -/
def run (h : Host m) (line : CommandLine) : ExceptT Fault m Unit := do
  let settings ← h.loadSettings line.options.config
  match line.command with
  | some (.build b) => runBuild h settings line.options b
  | some (.inspect input) => runInspect h settings line.options input
  | some (.validate catalog workload) => runValidate h settings line.options catalog workload
  | none =>
      h.printLines
        ["txnpath - transaction-path models", "", "Use --help for usage information"]

end CommandLine

end PathForecast
