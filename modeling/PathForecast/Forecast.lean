import PathForecast.Table
import PathForecast.PartitionSet
import PathForecast.Weight

/-!
# Forecasts

What a recompute predicts for a transaction that has reached a vertex.
-/

set_option autoImplicit false

namespace PathForecast

/-- Forecasts of one vertex, all zero until a recompute sets them. -/
structure Forecast (α : Type) where
  /-- Probability that the transaction aborts in the end. -/
  abort : α
  /-- Probability that the whole transaction stays on at most one partition. -/
  singlePartition : α
  /-- Probability that no partition beyond those touched so far is needed. -/
  noNewPartitions : α
  /-- For each partition, the probability that it is never touched again. -/
  done : Table PartitionId α

namespace Forecast

variable {α : Type} [Weight α]

def zero : Forecast α := ⟨0, 0, 0, ∅⟩

/-- Probability that a partition is never touched again; one that the model has not seen is never
touched at all. -/
def doneWith (f : Forecast α) (p : PartitionId) : α := (f.done.get? p).getD 1

end Forecast

end PathForecast
