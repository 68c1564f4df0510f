import PathForecast.HitCount
import PathForecast.Ids
import PathForecast.Weight

/-!
# Edges

A directed transition between two vertices with its hits and the probability derived from them.
-/

set_option autoImplicit false

namespace PathForecast

/-- An edge of a graph. -/
structure Edge (α : Type) where
  id : EdgeId
  element : ElementId
  source : VertexId
  dest : VertexId
  hits : HitCount
  probability : α

namespace Edge

variable {α : Type} [Weight α]

def fresh (id : EdgeId) (element : ElementId) (source dest : VertexId) : Edge α :=
  { id, element, source, dest, hits := .zero, probability := 0 }

def recordHit (e : Edge α) : Edge α := { e with hits := e.hits.record }

def foldHits (e : Edge α) : Edge α := { e with hits := e.hits.fold }

def discardHits (e : Edge α) : Edge α := { e with hits := e.hits.discard }

/-- The share of the source's hits that took this edge, at most one. A source without hits leaves
the probability as it is. -/
def derive (e : Edge α) (sourceHits : UInt64) : Edge α :=
  if sourceHits = 0 then e
  else { e with probability := Weight.least (Weight.ratio e.hits.total sourceHits) 1 }

end Edge

end PathForecast
