import PathForecast.Binary64
import PathForecast.Graph
import Std.Data.TreeSet

/-!
# Snapshots

A detached copy of a graph at one instant. Query vertices without hits carry nothing and are left
out, together with every edge that touches them. Vertices and edges keep the order of the graph,
so a snapshot taken from a graph ascends by id; `vertex?` searches by halving and relies on it.
-/

set_option autoImplicit false

namespace PathForecast

/-- A vertex as a snapshot shows it. -/
structure SnapshotVertex (α : Type) where
  id : VertexId
  element : ElementId
  kind : VertexKind
  statement : Option StatementId
  index : UInt32
  partitions : PartitionSet
  past : PartitionSet
  totalHits : UInt64
  windowHits : UInt64
  averageRemaining : Option α
  forecast : Forecast α

/-- An edge as a snapshot shows it. -/
structure SnapshotEdge (α : Type) where
  id : EdgeId
  element : ElementId
  source : VertexId
  dest : VertexId
  totalHits : UInt64
  windowHits : UInt64
  probability : α

/-- A copy of the graph of one procedure. -/
structure Snapshot (α : Type) where
  procedure : ProcedureId
  procedureName : String
  transactionCount : UInt64
  recomputeCount : UInt64
  vertices : List (SnapshotVertex α)
  edges : List (SnapshotEdge α)

namespace Snapshot

/-- Searches a list that ascends by `key` for a key, halving the part between `low` and
`low + size`; `fuel` bounds the halvings. -/
def search {β : Type} (items : Array β) (key : β → Nat) (target : Nat) :
    Nat → Nat → Nat → Option β
  | 0, low, _ => (items[low]?).filter fun x => key x == target
  | fuel + 1, low, size =>
      if size ≤ 1 then (items[low]?).filter fun x => key x == target
      else
        let half := size / 2
        match items[low + half]? with
        | none => none
        | some x =>
            if target < key x then search items key target fuel low (size - half)
            else search items key target fuel (low + half) (size - half)

variable {α : Type}

/-- The vertex with an id, found by halving. -/
def vertex? (s : Snapshot α) (v : VertexId) : Option (SnapshotVertex α) :=
  let items := s.vertices.toArray
  search items (fun x => rank x.id) (rank v) items.size 0 items.size

/-- The first edge from one vertex to another. -/
def edgeBetween (s : Snapshot α) (source dest : VertexId) : Option (SnapshotEdge α) :=
  s.edges.find? fun e => decide (e.source = source) && decide (e.dest = dest)

def queryVertexCount (s : Snapshot α) : Nat :=
  s.vertices.countP fun v => decide (v.kind = .query)

/-- Every partition that a vertex of the snapshot touches itself. -/
def partitions (s : Snapshot α) : PartitionSet :=
  s.vertices.foldl (fun ps v => ps ∪ v.partitions) ∅

/-- The forecast of the first start marker. -/
def startForecast? (s : Snapshot α) : Option (Forecast α) :=
  (s.vertices.find? fun v => decide (v.kind = .start)).map (·.forecast)

end Snapshot

namespace Vertex

variable {α : Type} [Weight α]

def snapshot (v : Vertex α) : SnapshotVertex α where
  id := v.id
  element := v.element
  kind := v.state.kind
  statement := v.state.statement?
  index := v.state.index
  partitions := v.state.partitions
  past := v.state.past
  totalHits := v.hits.total
  windowHits := v.hits.window
  averageRemaining := v.timing.average
  forecast := v.forecast

end Vertex

namespace Edge

variable {α : Type}

def snapshot (e : Edge α) : SnapshotEdge α where
  id := e.id
  element := e.element
  source := e.source
  dest := e.dest
  totalHits := e.hits.total
  windowHits := e.hits.window
  probability := e.probability

end Edge

namespace Graph

variable {α : Type} [Weight α]

/-- Whether a snapshot lists a vertex. -/
def isListed (v : Vertex α) : Bool :=
  !v.state.isQuery || decide (0 < v.hits.total) || decide (0 < v.hits.window)

/-- The copy of the graph as it is now. -/
def snapshot (g : Graph α) : Snapshot α :=
  let vertices := (g.vertices.toList.filter isListed).map (·.snapshot)
  let kept := vertices.foldl (fun t v => t.insert (rank v.id)) (∅ : Std.TreeSet Nat)
  let edges := g.edges.toList.filter fun e =>
    kept.contains (rank e.source) && kept.contains (rank e.dest)
  { procedure := g.procedure.id
    procedureName := g.procedure.name
    transactionCount := g.transactionCount
    recomputeCount := g.recomputeCount
    vertices
    edges := edges.map (·.snapshot) }

end Graph

/-! ## Numbers of another type -/

namespace Forecast

variable {α β : Type}

def map (f : α → β) (x : Forecast α) : Forecast β :=
  ⟨f x.abort, f x.singlePartition, f x.noNewPartitions, x.done.mapValues fun _ d => f d⟩

end Forecast

namespace Snapshot

variable {α β : Type}

/-- The same snapshot over another type of numbers. -/
def map (f : α → β) (s : Snapshot α) : Snapshot β :=
  { s with
    vertices := s.vertices.map fun v =>
      { v with averageRemaining := v.averageRemaining.map f, forecast := v.forecast.map f }
    edges := s.edges.map fun e => { e with probability := f e.probability } }

/-- The snapshot with its floats as bits, as files hold it. -/
def stored (s : Snapshot Float) : Snapshot Binary64 := s.map .ofFloat

end Snapshot

end PathForecast
