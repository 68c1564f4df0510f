import PathForecast.Decimal.Text
import PathForecast.PartitionSet

/-!
# Violations

The ways in which a graph can break the rules of a learned model, with the numbers that show it.
-/

set_option autoImplicit false

namespace PathForecast

/-- One broken rule. -/
inductive Violation (α : Type) where
  /-- Two elements share an id. -/
  | duplicateElement (element : ElementId)
  /-- Two edges join the same ordered pair. -/
  | parallelEdge (source dest : VertexId)
  /-- An end of the edge does not exist. -/
  | danglingEdge (edge : EdgeId)
  /-- The edge was taken more often than its source was reached. -/
  | edgeExceedsSource (edge : EdgeId) (edgeHits sourceHits : UInt64)
  /-- The hits of a query vertex are not the sum over its outbound edges. -/
  | hitsNotConserved (vertex : VertexId) (vertexHits edgeHits : UInt64)
  /-- The outbound probabilities of a query vertex do not sum to one. -/
  | probabilityNotConserved (vertex : VertexId) (total : α)
  /-- A vertex with traffic has no inbound probability. -/
  | inboundProbabilityZero (vertex : VertexId)
  /-- The destination does not carry the partitions touched so far. -/
  | pastPartitionLineage (edge : EdgeId) (expected found : PartitionSet)
  /-- Two invocations of a statement follow each other without counting up by one. -/
  | instanceSuccession (edge : EdgeId) (sourceIndex destIndex : UInt32)

/-- The violation in words. -/
def Violation.message : Violation Float → String
  | .duplicateElement x => s!"duplicate element id {x.label}"
  | .parallelEdge s d => s!"more than one edge from {s.label} to {d.label}"
  | .danglingEdge e => s!"edge {e.label} references a missing vertex"
  | .edgeExceedsSource e h s => s!"edge {e.label} has {h} hits but its source has {s}"
  | .hitsNotConserved v h s => s!"vertex {v.label} has {h} hits but its edges sum to {s}"
  | .probabilityNotConserved v total =>
      s!"outbound probability of {v.label} sums to " ++ (Binary64.ofFloat total).plain
  | .inboundProbabilityZero v => s!"inbound probability of {v.label} is zero"
  | .pastPartitionLineage e expected found =>
      s!"edge {e.label} expects past partitions {expected.label}, " ++
        s!"destination has {found.label}"
  | .instanceSuccession e i j => s!"edge {e.label} goes from invocation {i} to {j}"

end PathForecast
