import PathForecast.Graph
import PathForecast.Traversal

/-!
# Forecasting

The forecast of a vertex is the sum of its successors' forecasts, weighted by the probabilities of
the edges; the two terminal markers have fixed forecasts. Vertices are taken in the order in which
a depth-first traversal closes them. An edge whose destination has no forecast yet closes a cycle:
it adds nothing, and the weight of the remaining edges is scaled up to one.
-/

set_option autoImplicit false

namespace PathForecast

variable {α : Type} [Weight α]

/-- The weighted sums over the outbound edges of one vertex. -/
structure Tally (α : Type) where
  /-- The weight of the edges that were added. -/
  included : α
  /-- Whether an edge was left out. -/
  skipped : Bool
  sum : Forecast α

namespace Tally

/-- No edge yet; every partition of the graph has an entry. -/
def zero (partitions : PartitionSet) : Tally α :=
  { included := 0, skipped := false
    sum := ⟨0, 0, 0, .ofKeys partitions.ids partitions.ascending 0⟩ }

/-- Adds an edge to a vertex whose forecast is known. `touched` holds the partitions touched at the
source. -/
def add (t : Tally α) (touched : PartitionSet) (weight : α) (dest : VertexState)
    (next : Forecast α) : Tally α :=
  let s := t.sum
  let abort := s.abort + weight * next.abort
  let singlePartition := s.singlePartition + weight * next.singlePartition
  let sum : Forecast α :=
    if dest.kind.isTerminal then
      { abort, singlePartition
        noNewPartitions := s.noNewPartitions + weight
        done := s.done.mapValues fun _ d => d + weight }
    else
      { abort, singlePartition
        noNewPartitions :=
          if dest.partitions.isSubset touched then s.noNewPartitions + weight * next.noNewPartitions
          else s.noNewPartitions
        done := s.done.mapValues fun p d =>
          if p ∈ dest.partitions then d else d + weight * next.doneWith p }
  { t with included := t.included + weight, sum }

/-- Leaves an edge out. -/
def skip (t : Tally α) : Tally α := { t with skipped := true }

/-- The forecast that the sums amount to. -/
def forecast (t : Tally α) (touched : PartitionSet) : Forecast α :=
  let share := fun x => if t.skipped && Weight.lt 0 t.included then x / t.included else x
  { abort := Weight.least (share t.sum.abort) 1
    singlePartition :=
      Weight.least (if 1 < touched.size then 0 else share t.sum.singlePartition) 1
    noNewPartitions := Weight.least (share t.sum.noNewPartitions) 1
    done := t.sum.done.mapValues fun _ d => Weight.least (share d) 1 }

end Tally

/-- The forecast of a terminal marker: nothing will be touched again. -/
def Forecast.ofTerminal (partitions : PartitionSet) (kind : VertexKind) : Forecast α where
  abort := if kind = .abort then 1 else 0
  singlePartition := 1
  noNewPartitions := 1
  done := .ofKeys partitions.ids partitions.ascending 1

namespace Graph

/-- For each slot the destinations and probabilities of the edges that leave it. -/
def outbound (g : Graph α) : Array (List (Nat × α)) :=
  g.edges.foldr (fun e out => out.modify e.source.slot ((e.dest.slot, e.probability) :: ·))
    (Array.replicate g.vertices.size [])

/-- Every partition that some vertex touches. -/
def partitions (g : Graph α) : PartitionSet :=
  g.vertices.foldl (fun s v => s ∪ v.state.touched) ∅

/-- The forecast of a vertex from those of its successors that are known. -/
def forecastOf (g : Graph α) (partitions : PartitionSet) (known : Array (Option (Forecast α)))
    (v : Vertex α) (edges : List (Nat × α)) : Forecast α :=
  if v.state.kind.isTerminal then .ofTerminal partitions v.state.kind
  else
    let touched := v.state.touched
    let tally := edges.foldl
      (fun t e =>
        match known[e.1]?.join, g.vertices[e.1]? with
        | some next, some dest => t.add touched e.2 dest.state next
        | _, _ => t.skip)
      (Tally.zero partitions)
    tally.forecast touched

/-- The forecasts of all vertices, by slot. -/
def forecasts (g : Graph α) : Array (Option (Forecast α)) :=
  let out := g.outbound
  let partitions := g.partitions
  let order := (Traversal.run (out.map fun edges => edges.map (·.1))).order.reverse
  order.foldl
    (fun known slot =>
      match g.vertices[slot]? with
      | some v =>
          known.setIfInBounds slot (some (g.forecastOf partitions known v (out[slot]?.getD [])))
      | none => known)
    (Array.replicate g.vertices.size none)

/-- Stores a fresh forecast in every vertex. -/
def propagate (g : Graph α) : Graph α :=
  let known := g.forecasts
  { g with
    vertices := g.vertices.mapIdx fun i v =>
      match known[i]?.join with
      | some f => v.setForecast f
      | none => v }

end Graph

end PathForecast
