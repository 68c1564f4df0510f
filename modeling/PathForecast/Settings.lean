import PathForecast.Weight

/-!
# Model settings

What a graph is constructed with: the tolerances of its audit and of its predictions, whether
earlier partitions are part of a vertex's identity, and which transactions leave timing samples.
-/

set_option autoImplicit false

namespace PathForecast

/-- Whose remaining-time samples survive a recompute. -/
inductive TimingPolicy where
  | committedOnly
  | committedAndAborted
deriving DecidableEq, Inhabited

def TimingPolicy.includesAborted : TimingPolicy → Bool
  | .committedOnly => false
  | .committedAndAborted => true

/-- The settings of one graph. -/
structure ModelSettings (α : Type) where
  /-- Tolerance for outbound probabilities that should sum to one. -/
  probabilityEpsilon : α
  /-- Abort forecast at or below which a vertex may be predicted not to abort. -/
  abortThreshold : α
  /-- Hits that a vertex needs before it may be predicted not to abort. -/
  minHitsForNoAbort : UInt64
  /-- Whether past partitions take part in the identity of a vertex. -/
  usePastPartitions : Bool
  /-- Share of drifted vertices from which on a recompute is recommended. -/
  staleProportion : α
  timingPolicy : TimingPolicy

namespace ModelSettings

/-- An epsilon of `0.00001`, no abort at all, five hits, past partitions in the identity, half of
the vertices, samples of committed transactions only. -/
def standard {α : Type} [Weight α] : ModelSettings α where
  probabilityEpsilon := Weight.ratio 1 100000
  abortThreshold := 0
  minHitsForNoAbort := 5
  usePastPartitions := true
  staleProportion := Weight.ratio 1 2
  timingPolicy := .committedOnly

end ModelSettings

end PathForecast
