import PathForecast.Graph
import Std.Data.TreeSet

/-!
# Audit

Walks every vertex and edge of a graph and reports the first broken rule. Structure comes first
(ids, pairs, ends), edge by edge together with what a single edge can break; then the sums over
the outbound edges of each vertex, then those over the inbound edges. The probability rules hold
after a recompute and not between two of them.
-/

set_option autoImplicit false

namespace PathForecast

/-- The first number that occurs for the second time. -/
def firstRepeat (seen : Std.TreeSet Nat) : List Nat → Option Nat
  | [] => none
  | x :: xs => if seen.contains x then some x else firstRepeat (seen.insert x) xs

/-- Sums over the edges that leave and enter one vertex. -/
structure EdgeTotals (α : Type) where
  outDegree : Nat
  outboundHits : UInt64
  outboundProbability : α
  inboundHits : UInt64
  inboundProbability : α

variable {α : Type} [Weight α]

namespace EdgeTotals

def zero : EdgeTotals α := ⟨0, 0, 0, 0, 0⟩

def addOutbound (t : EdgeTotals α) (e : Edge α) : EdgeTotals α :=
  { t with
    outDegree := t.outDegree + 1
    outboundHits := satAdd t.outboundHits e.hits.total
    outboundProbability := t.outboundProbability + e.probability }

def addInbound (t : EdgeTotals α) (e : Edge α) : EdgeTotals α :=
  { t with
    inboundHits := satAdd t.inboundHits e.hits.total
    inboundProbability := t.inboundProbability + e.probability }

/-- Hits and probability over the outbound edges of a query vertex. -/
def outboundViolation (t : EdgeTotals α) (v : Vertex α) (epsilon : α) : Option (Violation α) :=
  if !v.state.isQuery then none
  else if v.hits.total ≠ t.outboundHits then
    some (.hitsNotConserved v.id v.hits.total t.outboundHits)
  else if 0 < t.outDegree && Weight.lt epsilon (Weight.abs (t.outboundProbability - 1)) then
    some (.probabilityNotConserved v.id t.outboundProbability)
  else none

/-- A vertex with inbound traffic has inbound probability. -/
def inboundViolation (t : EdgeTotals α) (v : Vertex α) (epsilon : α) : Option (Violation α) :=
  if 0 < t.inboundHits && Weight.le t.inboundProbability epsilon then
    some (.inboundProbabilityZero v.id)
  else none

end EdgeTotals

namespace Graph

/-- The sums over the edges of every vertex, by slot. An edge without both ends counts nowhere. -/
def edgeTotals (g : Graph α) : Array (EdgeTotals α) :=
  g.edges.foldl
    (fun totals e =>
      if e.source.slot < totals.size && e.dest.slot < totals.size then
        (totals.modify e.source.slot (·.addOutbound e)).modify e.dest.slot (·.addInbound e)
      else totals)
    (Array.replicate g.vertices.size .zero)

/-- Each vertex with its sums. -/
def verticesWithTotals (g : Graph α) : List (Vertex α × EdgeTotals α) :=
  let totals := g.edgeTotals
  g.vertices.toList.map fun v => (v, totals[v.id.slot]?.getD .zero)

/-- The past partitions that an edge out of a state asks of a query vertex. -/
def expectedPast? (source : VertexState) : Option PartitionSet :=
  match source.kind with
  | .query => some source.touched
  | .start => some ∅
  | .commit => none
  | .abort => none

/-- What an edge breaks by its hits or by the states that it joins. -/
def edgeViolation (g : Graph α) (e : Edge α) : Option (Violation α) :=
  match g.vertex? e.source, g.vertex? e.dest with
  | some source, some dest =>
      if source.hits.total < e.hits.total then
        some (.edgeExceedsSource e.id e.hits.total source.hits.total)
      else
        match lineage source.state dest.state with
        | some v => some v
        | none => succession source.state dest.state
  | _, _ => some (.danglingEdge e.id)
where
  lineage (source dest : VertexState) : Option (Violation α) :=
    if g.settings.usePastPartitions && dest.isQuery then
      match expectedPast? source with
      | some expected =>
          if expected = dest.past then none
          else some (.pastPartitionLineage e.id expected dest.past)
      | none => none
    else none
  succession (source dest : VertexState) : Option (Violation α) :=
    if source.isQuery && dest.isQuery && decide (source.statement? = dest.statement?) &&
        decide (source.index.toNat + 1 ≠ dest.index.toNat) then
      some (.instanceSuccession e.id source.index dest.index)
    else none

/-- One number for an ordered pair of vertices. -/
def pairNumber (e : Edge α) : Nat := e.source.slot * UInt32.size + e.dest.slot

/-- The first edge that repeats a pair or breaks a rule of its own. -/
def firstEdgeViolation (g : Graph α) (seen : Std.TreeSet Nat) :
    List (Edge α) → Option (Violation α)
  | [] => none
  | e :: es =>
      if seen.contains (pairNumber e) then some (.parallelEdge e.source e.dest)
      else
        match g.edgeViolation e with
        | some v => some v
        | none => g.firstEdgeViolation (seen.insert (pairNumber e)) es

/-- The numbers of all element ids, vertices first. -/
def elementNumbers (g : Graph α) : List Nat :=
  g.vertices.toList.map (·.element.number.toNat) ++ g.edges.toList.map (·.element.number.toNat)

/-- The first rule that the graph breaks. -/
def violation? (g : Graph α) : Option (Violation α) :=
  let epsilon := g.settings.probabilityEpsilon
  match firstRepeat ∅ g.elementNumbers with
  | some n => some (.duplicateElement ⟨n.toUInt64⟩)
  | none =>
      match g.firstEdgeViolation ∅ g.edges.toList with
      | some v => some v
      | none =>
          let vertices := g.verticesWithTotals
          match vertices.findSome? (fun x => x.2.outboundViolation x.1 epsilon) with
          | some v => some v
          | none => vertices.findSome? (fun x => x.2.inboundViolation x.1 epsilon)

/-- Audits the graph. -/
def validate (g : Graph α) : Except (Violation α) Unit :=
  match g.violation? with
  | some v => .error v
  | none => .ok ()

def isValid (g : Graph α) : Bool := g.violation?.isNone

/-- Every vertex whose own sums break a rule, in the order of the vertices. -/
def invalidVertices (g : Graph α) : List VertexId :=
  let epsilon := g.settings.probabilityEpsilon
  (g.verticesWithTotals.filter fun x =>
    (x.2.outboundViolation x.1 epsilon).isSome || (x.2.inboundViolation x.1 epsilon).isSome).map
    (·.1.id)

end Graph

end PathForecast
