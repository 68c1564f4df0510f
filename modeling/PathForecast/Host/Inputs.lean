import PathForecast.Catalog.Json
import PathForecast.Fault
import PathForecast.Host
import PathForecast.RunSettings
import PathForecast.Trace.Json

/-!
# Input files

Reads settings, catalogs and workloads through a host. A file other than the settings is read only
if it is regular and not too large.
-/

set_option autoImplicit false

namespace PathForecast

namespace Host

variable {m : Type → Type} [Monad m]

/-- What an operation at a path answers, or the fault that its failure is. -/
def demand {β : Type} (attempt : FileAttempt) (path : String) (operation : m (Except String β)) :
    ExceptT Fault m β := do
  match ← operation with
  | .ok x => return x
  | .error reason => throw (.io (.refused attempt path reason))

/-- The content of a regular file of at most `limit` bytes. -/
def readBounded (h : Host m) (path : String) (limit : UInt64) : ExceptT Fault m Bytes := do
  match ← demand .read path (h.info path) with
  | .other => throw (.io (.notRegular path))
  | .regular size =>
      if limit.toNat < size then throw (.serialization (.tooLarge size limit))
      demand .read path (h.read path)

def loadCatalog (h : Host m) (path : String) (limit : UInt64) : ExceptT Fault m Catalog := do
  match Catalog.parse? (← h.readBounded path limit) with
  | some c => return c
  | none => throw (.serialization (.malformed .catalog))

def loadWorkload (h : Host m) (path : String) (limit : UInt64) :
    ExceptT Fault m (List TransactionTrace) := do
  match parseWorkload? (← h.readBounded path limit) with
  | some ts => return ts
  | none => throw (.serialization (.malformed .workload))

/-- The settings of a file, or the standard ones when no file is named. -/
def loadSettings (h : Host m) : Option String → ExceptT Fault m RunSettings
  | none => return .standard
  | some path => do
      match Bytes.text? (← demand .readConfig path (h.read path)) with
      | some text => ExceptT.mk (pure (RunSettings.parse text))
      | none => throw (.io (.refused .readConfig path "the file is not valid UTF-8"))

end Host

end PathForecast
