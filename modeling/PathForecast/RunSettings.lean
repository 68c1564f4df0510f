import PathForecast.Fault
import PathForecast.Settings
import PathForecast.Toml.Document

/-!
# Run settings

The settings of one run, read from a TOML file: how graphs are constructed, how many learners work
on a procedure, and how large an input file may be. Every key may be missing. Unknown keys are
refused at the top. Under `model` they are ignored, but their numbers have to be readable.
-/

set_option autoImplicit false

namespace PathForecast

namespace TomlValue

def uint64? : TomlValue → Option UInt64
  | .integer n => if 0 ≤ n ∧ n.toNat < UInt64.size then some n.toNat.toUInt64 else none
  | _ => none

/-- A float, or an integer of 64 bits with or without sign. -/
def float? : TomlValue → Option Float
  | .float x => some x.toFloat
  | .integer n =>
      if -0x8000000000000000 ≤ n ∧ n.toNat < UInt64.size then
        some (Binary64.nearest (decide (n < 0)) n.natAbs 1).toFloat
      else none
  | _ => none

def bool? : TomlValue → Option Bool
  | .bool b => some b
  | _ => none

/-- An array or a table without entries. -/
def isEmptyCollection : TomlValue → Bool
  | .array items => items.isEmpty
  | .table _ entries => entries.isEmpty
  | _ => false

end TomlValue

/-- The policy of a name. -/
def TimingPolicy.ofName? (name : String) : Option TimingPolicy :=
  if name = "committed_only" then some .committedOnly
  else if name = "committed_and_aborted" then some .committedAndAborted
  else none

/-- A policy is its name, or a table that gives the name an empty collection. -/
def TimingPolicy.ofToml? : TomlValue → Option TimingPolicy
  | .string name => ofName? name
  | .table _ [(name, v)] => if v.isEmptyCollection then ofName? name else none
  | _ => none

namespace ModelSettings

/-- The keys of the settings, in order. -/
def keys : List String :=
  ["probability_epsilon", "abort_confidence_threshold", "min_hits_for_no_abort",
    "use_past_partitions", "stale_vertex_proportion", "time_normalization"]

/-- A value that may be missing; then the default stands. -/
def orDefault {β : Type} (read : TomlValue → Option β) (default : β) : Option TomlValue → Option β
  | none => some default
  | some v => read v

/-- Reads the values found for the keys. -/
def ofFound? (found : List (Option TomlValue)) : Option (ModelSettings Float) := do
  let base : ModelSettings Float := .standard
  let value (i : Nat) : Option TomlValue := found[i]?.join
  let probabilityEpsilon ← orDefault TomlValue.float? base.probabilityEpsilon (value 0)
  let abortThreshold ← orDefault TomlValue.float? base.abortThreshold (value 1)
  let minHitsForNoAbort ← orDefault TomlValue.uint64? base.minHitsForNoAbort (value 2)
  let usePastPartitions ← orDefault TomlValue.bool? base.usePastPartitions (value 3)
  let staleProportion ← orDefault TomlValue.float? base.staleProportion (value 4)
  let timingPolicy ← orDefault TimingPolicy.ofToml? base.timingPolicy (value 5)
  return { probabilityEpsilon, abortThreshold, minHitsForNoAbort, usePastPartitions,
           staleProportion, timingPolicy }

/-- Settings are a table, or an array of the values in the order of the keys, where nobody looks at
items after the last key. A date has none of the keys. -/
def ofToml? : TomlValue → Option (ModelSettings Float)
  | .table _ entries =>
      if TomlTable.isReadable entries then ofFound? (keys.map fun k => TomlTable.get? entries k)
      else none
  | .array items => ofFound? (items.map some)
  | .tables items => ofFound? (items.reverse.map fun t => some (.table .header t))
  | .datetime => some .standard
  | _ => none

end ModelSettings

/-- The settings of one run. -/
structure RunSettings where
  model : ModelSettings Float
  /-- Learners per procedure. Their number does not change what is learned. -/
  threads : UInt64
  /-- The largest file that is read, in bytes. -/
  maxFileBytes : UInt64

namespace RunSettings

/-- One learner and files of at most 100 MB. -/
def standard : RunSettings where
  model := .standard
  threads := 1
  maxFileBytes := 104857600

def keys : List String := ["model", "threads", "max_file_bytes"]

def ofTable? (t : TomlTable) : Option RunSettings := do
  if t.any fun e => !keys.contains e.1 then none
  let model ← ModelSettings.orDefault ModelSettings.ofToml? standard.model (t.get? "model")
  let threads ← ModelSettings.orDefault TomlValue.uint64? standard.threads (t.get? "threads")
  let maxFileBytes ←
    ModelSettings.orDefault TomlValue.uint64? standard.maxFileBytes (t.get? "max_file_bytes")
  return { model, threads, maxFileBytes }

/-- The settings that a text describes. A run needs a learner. -/
def parse (text : String) : Except Fault RunSettings :=
  match (Toml.parse? text).bind ofTable? with
  | none => .error (.serialization (.malformed .config))
  | some s =>
      if s.threads = 0 then .error (.serialization .noLearner) else .ok s

end RunSettings

end PathForecast
