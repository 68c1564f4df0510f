import PathForecast.Catalog
import PathForecast.Edge
import PathForecast.Fault
import PathForecast.Settings
import PathForecast.Vertex

/-!
# Graphs

The model of one procedure: a directed graph of transaction states. Vertices and edges are kept in
arrays and named by their slot; neither is ever removed. Beside the arrays a graph keeps an index
from statements to their vertices, a memo of successor lists, and the batch outcomes that a
predictor asked it to remember.

A seeded graph has its three markers in slots 0, 1 and 2 (`Markers.fixed`): before
`seed` nothing can be added, so the slots are free.
-/

set_option autoImplicit false

namespace PathForecast

/-- The three marker vertices. -/
structure Markers where
  start : VertexId
  commit : VertexId
  abort : VertexId
deriving DecidableEq

def Markers.fixed : Markers := ⟨⟨0⟩, ⟨1⟩, ⟨2⟩⟩

/-- What a batch is looked up by: where it starts and the query that ends it. -/
structure BatchKey where
  start : VertexId
  query : VertexKey
deriving DecidableEq

/-- What a batch led to. -/
structure BatchEnd where
  edge : EdgeId
  vertex : VertexId
deriving DecidableEq

/-- The model of one procedure. -/
structure Graph (α : Type) where
  procedure : Procedure
  settings : ModelSettings α
  seeded : Bool
  vertices : Array (Vertex α)
  edges : Array (Edge α)
  /-- The id of the next vertex or edge. -/
  nextElement : UInt64
  /-- The query vertices of each statement, in the order of their creation. -/
  index : Table StatementId (Array VertexId)
  /-- Successor lists that were asked for and have not changed since. -/
  successorMemo : Table VertexId (List VertexId)
  batchEnds : List (BatchKey × BatchEnd)
  /-- Transactions learned. -/
  transactionCount : UInt64
  /-- Transactions learned before the last recompute or reset. -/
  transactionsAtRecompute : UInt64
  mispredictions : UInt64
  recomputeCount : UInt64

/-- How many lists and outcomes a graph remembers. -/
structure CacheStats where
  successorEntries : Nat
  batchEntries : Nat
deriving DecidableEq

namespace Graph

variable {α : Type} [Weight α]

/-- A graph without vertices. -/
def empty (procedure : Procedure) (settings : ModelSettings α) : Graph α where
  procedure := procedure
  settings := settings
  seeded := false
  vertices := #[]
  edges := #[]
  nextElement := 0
  index := ∅
  successorMemo := ∅
  batchEnds := []
  transactionCount := 0
  transactionsAtRecompute := 0
  mispredictions := 0
  recomputeCount := 0

/-! ## Looking up -/

def vertex? (g : Graph α) (v : VertexId) : Option (Vertex α) := g.vertices[v.slot]?

def edge? (g : Graph α) (e : EdgeId) : Option (Edge α) := g.edges[e.slot]?

def vertex (g : Graph α) (v : VertexId) : Except Fault (Vertex α) :=
  match g.vertex? v with
  | some x => .ok x
  | none => .error (.vertexNotFound v)

def edge (g : Graph α) (e : EdgeId) : Except Fault (Edge α) :=
  match g.edge? e with
  | some x => .ok x
  | none => .error (.edgeNotFound e)

def markers (g : Graph α) : Except Fault Markers :=
  if g.seeded then .ok .fixed else .error (.notInitialized g.procedure.id)

/-- The vertices that the index lists under a statement. -/
def bucket (g : Graph α) (s : StatementId) : Array VertexId := (g.index.get? s).getD #[]

/-- The query vertex with a given identity. -/
def findKey (g : Graph α) (key : VertexKey) : Option VertexId :=
  (g.bucket key.statement).find? fun v =>
    match g.vertex? v with
    | some x => x.hasKey key g.settings.usePastPartitions
    | none => false

def statementVertexCount (g : Graph α) (s : StatementId) : Nat := (g.bucket s).size

/-- The edge from one vertex to another. -/
def edgeBetween (g : Graph α) (source dest : VertexId) : Option EdgeId :=
  (g.vertex? source).bind fun x => x.successors.get? dest

/-- Every edge that enters one of the targets, in the order of the edges. -/
def edgesTo (g : Graph α) (targets : List VertexId) : List EdgeId :=
  (g.edges.toList.filter (fun e => decide (e.dest ∈ targets))).map (·.id)

def cacheStats (g : Graph α) : CacheStats :=
  ⟨g.successorMemo.size, g.batchEnds.length⟩

/-- Transactions learned since the last recompute or reset. -/
def observedSinceRecompute (g : Graph α) : UInt64 :=
  satSub g.transactionCount g.transactionsAtRecompute

def label (g : Graph α) : String := s!"MarkovGraph<{g.procedure.name}>"

/-- Graphs are ordered by the procedure that they model. -/
def precedesOrEquals (g h : Graph α) : Bool := decide (rank g.procedure.id ≤ rank h.procedure.id)

/-- Graphs of one procedure count as equal. -/
def sameProcedure (g h : Graph α) : Bool := decide (g.procedure.id = h.procedure.id)

/-! ## Adding and changing elements -/

def updateVertex (g : Graph α) (v : VertexId) (f : Vertex α → Vertex α) : Graph α :=
  { g with vertices := g.vertices.modify v.slot f }

def updateEdge (g : Graph α) (e : EdgeId) (f : Edge α → Edge α) : Graph α :=
  { g with edges := g.edges.modify e.slot f }

/-- The handle of the vertex that `pushVertex` adds. -/
def nextVertex (g : Graph α) : VertexId := .ofSlot g.vertices.size

/-- The handle of the edge that `pushEdge` adds. -/
def nextEdge (g : Graph α) : EdgeId := .ofSlot g.edges.size

def pushVertex (g : Graph α) (state : VertexState) : Graph α :=
  { g with
    vertices := g.vertices.push (.fresh g.nextVertex ⟨g.nextElement⟩ state)
    nextElement := g.nextElement + 1 }

/-- Adds an edge, enters it into the source's table and forgets the source's successor list. -/
def pushEdge (g : Graph α) (source dest : VertexId) : Graph α :=
  let e := g.nextEdge
  let g := g.updateVertex source (·.addSuccessor dest e)
  { g with
    edges := g.edges.push (.fresh e ⟨g.nextElement⟩ source dest)
    nextElement := g.nextElement + 1
    successorMemo := g.successorMemo.erase source }

/-- Adds the markers and an empty index entry for every statement of the procedure. A second call
changes nothing. -/
def seed (g : Graph α) : Graph α :=
  if g.seeded then g
  else
    let g := ((g.pushVertex .start).pushVertex .commit).pushVertex .abort
    { g with
      seeded := true
      index := g.procedure.statements.foldl
        (fun t s => if (t.get? s.id).isSome then t else t.insert s.id #[]) g.index }

/-- A graph that is ready to learn. -/
def fresh (procedure : Procedure) (settings : ModelSettings α) : Graph α :=
  (empty procedure settings).seed

/-- The query vertex with a given identity, created if there is none. -/
def ensureVertex (g : Graph α) (key : VertexKey) : Graph α × VertexId :=
  match g.findKey key with
  | some v => (g, v)
  | none =>
      let v := g.nextVertex
      let g := g.pushVertex (.query key)
      ({ g with index := g.index.insert key.statement ((g.bucket key.statement).push v) }, v)

/-- The edge between two vertices, created if there is none. Its hits are not touched. -/
def ensureEdge (g : Graph α) (source dest : VertexId) : Graph α × EdgeId :=
  match g.edgeBetween source dest with
  | some e => (g, e)
  | none => (g.pushEdge source dest, g.nextEdge)

/-- The same as `ensureEdge`, for vertices that may not exist. -/
def addEdge (g : Graph α) (source dest : VertexId) : Except Fault (Graph α × EdgeId) := do
  let _ ← g.vertex source
  let _ ← g.vertex dest
  return g.ensureEdge source dest

/-! ## Remembered answers -/

/-- The destinations of the edges that leave a vertex, in ascending order. The list is remembered
until the vertex gains an edge. -/
def successors (g : Graph α) (v : VertexId) : Except Fault (Graph α × List VertexId) :=
  match g.successorMemo.get? v with
  | some vs => .ok (g, vs)
  | none => do
      let x ← g.vertex v
      let vs := x.successors.keys
      return ({ g with successorMemo := g.successorMemo.insert v vs }, vs)

def cachedBatchEnd (g : Graph α) (key : BatchKey) : Option BatchEnd := g.batchEnds.lookup key

/-- Remembers what a batch led to. The first outcome of a key stays, and is the answer. -/
def addCachedBatchEnd (g : Graph α) (key : BatchKey) (outcome : BatchEnd) :
    Graph α × BatchEnd :=
  match g.cachedBatchEnd key with
  | some known => (g, known)
  | none => ({ g with batchEnds := (key, outcome) :: g.batchEnds }, outcome)

/-- Counts one transaction that went another way than predicted. -/
def recordMisprediction (g : Graph α) : Graph α :=
  { g with mispredictions := g.mispredictions + 1 }

end Graph

end PathForecast
