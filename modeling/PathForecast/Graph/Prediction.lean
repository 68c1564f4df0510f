import PathForecast.Graph

/-!
# Predictions

What a graph says about running transactions, and how far it can be trusted.
-/

set_option autoImplicit false

namespace PathForecast

namespace Graph

variable {α : Type} [Weight α]

/-- Whether a transaction at a vertex is confidently expected to commit. -/
def predictNoAbort (g : Graph α) (v : VertexId) : Except Fault Bool := do
  let x ← g.vertex v
  return decide (g.settings.minHitsForNoAbort ≤ x.hits.total) &&
    Weight.le x.forecast.abort g.settings.abortThreshold

/-- How many vertices have drifted from their lifetime share. -/
def staleCount (g : Graph α) (observed : UInt64) (tolerance : α) : Nat :=
  g.vertices.toList.countP fun v => v.isStale observed tolerance g.transactionsAtRecompute

/-- Whether enough vertices have drifted to recommend a recompute. -/
def shouldRecompute (g : Graph α) (observed : UInt64) (tolerance : α) : Bool :=
  if g.vertices.isEmpty then false
  else
    Weight.le g.settings.staleProportion
      (Weight.ratio (g.staleCount observed tolerance).toUInt64 g.vertices.size.toUInt64)

/-- The share of learned transactions that were not mispredicted, one before any is learned. -/
def accuracyRatio (g : Graph α) : α :=
  if g.transactionCount = 0 then 1
  else Weight.ratio (satSub g.transactionCount g.mispredictions) g.transactionCount

end Graph

end PathForecast
