import PathForecast.Ids
import PathForecast.Saturation
import PathForecast.Weight

/-!
# Remaining-time samples

Every transaction leaves one sample on each vertex of its path, keyed by when it ended and by its
id. Samples wait until a recompute: those whose key is among the finished transactions are added
to the kept statistics, the others are dropped.
-/

set_option autoImplicit false

namespace PathForecast

/-- Which transaction a sample belongs to. -/
structure SampleKey where
  stop : UInt64
  txn : TxnId
deriving DecidableEq, Inhabited

/-- The samples of one vertex. -/
structure Timing where
  /-- Samples since the last recompute, newest first, one per key. -/
  pending : List (SampleKey × UInt64)
  /-- How many samples have been kept. -/
  count : UInt64
  /-- The sum of the kept durations. -/
  total : UInt64
deriving DecidableEq, Inhabited

namespace Timing

def empty : Timing := ⟨[], 0, 0⟩

/-- Adds a sample; a later sample of the same key takes the place of the earlier one. -/
def record (t : Timing) (key : SampleKey) (duration : UInt64) : Timing :=
  { t with pending := (key, duration) :: t.pending.filter (fun s => decide (s.1 ≠ key)) }

def keys (t : Timing) : List SampleKey := t.pending.map (·.1)

/-- Adds one duration to the kept statistics. -/
def keep (t : Timing) (duration : UInt64) : Timing :=
  { t with count := satAdd t.count 1, total := satAdd t.total duration }

/-- Keeps the pending samples of finished transactions and drops the others. -/
def settle (t : Timing) (finished : List SampleKey) : Timing :=
  (t.pending.filter (fun s => decide (s.1 ∈ finished))).foldl (fun t s => t.keep s.2)
    { t with pending := [] }

/-- The mean of the kept durations. -/
def average {α : Type} [Weight α] (t : Timing) : Option α :=
  if t.count = 0 then none else some (Weight.ratio t.total t.count)

theorem pending_foldl_keep (ss : List (SampleKey × UInt64)) (t : Timing) :
    (ss.foldl (fun t s => t.keep s.2) t).pending = t.pending := by
  induction ss generalizing t with
  | nil => rfl
  | cons s ss ih => rw [List.foldl_cons, ih]; rfl

/-- No sample waits after a recompute, kept or not. -/
@[simp] theorem pending_settle (t : Timing) (finished : List SampleKey) :
    (t.settle finished).pending = [] :=
  pending_foldl_keep _ _

end Timing

end PathForecast
