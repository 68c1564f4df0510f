import PathForecast.Graph.Forecasting

/-!
# Recompute and reset

A recompute turns the counts into probabilities: it settles the timing samples, closes the window
of every hit count, derives the edge probabilities and propagates the forecasts. A reset throws
the windows away instead.
-/

set_option autoImplicit false

namespace PathForecast

namespace Graph

variable {α : Type} [Weight α]

/-- The keys of the transactions whose samples are kept. -/
def finishedKeys (g : Graph α) : List SampleKey :=
  let keysAt := fun v => ((g.vertex? v).map (·.timing.keys)).getD []
  let committed := keysAt Markers.fixed.commit
  if g.settings.timingPolicy.includesAborted then committed ++ keysAt Markers.fixed.abort
  else committed

/-- Clears the forecasts, settles the samples and closes every window. -/
def closeWindow (g : Graph α) : Graph α :=
  let finished := g.finishedKeys
  { g with
    vertices := g.vertices.map fun v => (v.clearForecast.settleTimes finished).foldHits
    edges := g.edges.map (·.foldHits) }

/-- Derives every edge probability from the hits of its source. -/
def deriveProbabilities (g : Graph α) : Graph α :=
  { g with
    edges := g.edges.map fun e =>
      match g.vertex? e.source with
      | some v => e.derive v.hits.total
      | none => e }

/-- An end of an edge that is not in the graph. -/
def missingEnd? (g : Graph α) : Option VertexId :=
  g.edges.toList.findSome? fun e =>
    if (g.vertex? e.source).isNone then some e.source
    else if (g.vertex? e.dest).isNone then some e.dest
    else none

/-- Turns the accumulated counts into fresh probabilities. -/
def recompute (g : Graph α) : Except Fault (Graph α) := do
  let _ ← g.markers
  if let some v := g.missingEnd? then throw (.vertexNotFound v)
  let g := g.closeWindow.deriveProbabilities.propagate
  return { g with
    recomputeCount := g.recomputeCount + 1
    transactionsAtRecompute := g.transactionCount }

/-- Throws away the hits since the last recompute or reset. -/
def resetCounters (g : Graph α) : Graph α :=
  { g with
    vertices := g.vertices.map (·.discardHits)
    edges := g.edges.map (·.discardHits)
    transactionsAtRecompute := g.transactionCount }

end Graph

end PathForecast
