import PathForecast.Forecast
import PathForecast.HitCount
import PathForecast.Timing

/-!
# Vertices

A vertex is a state of a running transaction: one of three markers, or the point just after a
statement was run for the n-th time, on known partitions, with known partitions before it. That
much is its identity; hits, samples, forecast and outbound edges change while the graph learns.
-/

set_option autoImplicit false

namespace PathForecast

/-- The four kinds of state. -/
inductive VertexKind where
  | start
  | query
  | commit
  | abort
deriving DecidableEq, Inhabited

namespace VertexKind

/-- The end of a transaction. -/
def isTerminal : VertexKind → Bool
  | .commit => true
  | .abort => true
  | _ => false

/-- A state of which a graph has exactly one. -/
def isMarker : VertexKind → Bool
  | .query => false
  | _ => true

def label : VertexKind → String
  | .start => "START"
  | .query => "QUERY"
  | .commit => "COMMIT"
  | .abort => "ABORT"

end VertexKind

/-- The identity of a query vertex. -/
structure VertexKey where
  statement : StatementId
  partitions : PartitionSet
  /-- The partitions touched before this query. -/
  past : PartitionSet
  /-- How often the statement was run before, within the transaction. -/
  index : UInt32
deriving DecidableEq, Inhabited

namespace VertexKey

/-- The identity test. Without `past`, earlier partitions are left out of the comparison. -/
def fits (k : VertexKey) (statement : StatementId) (partitions : PartitionSet)
    (past : Option PartitionSet) (index : UInt32) : Bool :=
  decide (k.index = index) && decide (k.statement = statement) &&
    decide (k.partitions = partitions) &&
    match past with
    | none => true
    | some p => decide (k.past = p)

/-- Whether two keys name the same vertex. -/
def same (k l : VertexKey) (usePast : Bool) : Bool :=
  k.fits l.statement l.partitions (if usePast then some l.past else none) l.index

/-- Two keys name one vertex if all parts agree that the settings count as identity. -/
theorem same_iff (k l : VertexKey) (usePast : Bool) :
    k.same l usePast = true ↔
      k.statement = l.statement ∧ k.partitions = l.partitions ∧ k.index = l.index ∧
        (usePast = true → k.past = l.past) := by
  cases usePast <;> simp only [same, fits, Bool.and_eq_true, decide_eq_true_eq, if_true]
  · constructor
    · rintro ⟨⟨⟨hi, hs⟩, hp⟩, _⟩
      exact ⟨hs, hp, hi, by simp⟩
    · rintro ⟨hs, hp, hi, _⟩
      exact ⟨⟨⟨hi, hs⟩, hp⟩, by simp⟩
  · constructor
    · rintro ⟨⟨⟨hi, hs⟩, hp⟩, hpast⟩
      exact ⟨hs, hp, hi, fun _ => hpast⟩
    · rintro ⟨hs, hp, hi, hpast⟩
      exact ⟨⟨⟨hi, hs⟩, hp⟩, hpast trivial⟩

end VertexKey

/-- What a vertex stands for. -/
inductive VertexState where
  | start
  | query (key : VertexKey)
  | commit
  | abort
deriving DecidableEq, Inhabited

namespace VertexState

def kind : VertexState → VertexKind
  | .start => .start
  | .query _ => .query
  | .commit => .commit
  | .abort => .abort

def key? : VertexState → Option VertexKey
  | .query k => some k
  | _ => none

def statement? (s : VertexState) : Option StatementId := s.key?.map (·.statement)

def index (s : VertexState) : UInt32 := (s.key?.map (·.index)).getD 0

def partitions (s : VertexState) : PartitionSet := (s.key?.map (·.partitions)).getD ∅

def past (s : VertexState) : PartitionSet := (s.key?.map (·.past)).getD ∅

/-- The partitions touched once a transaction has reached this state. -/
def touched (s : VertexState) : PartitionSet := s.past ∪ s.partitions

def isQuery (s : VertexState) : Bool := decide (s.kind = .query)

def label (s : VertexState) : String :=
  match s with
  | .query k =>
      s!"{s.kind.label}[stmt={k.statement.number} #{k.index} parts={k.partitions.label} " ++
        s!"past={k.past.label}]"
  | _ => s.kind.label

end VertexState

/-- A vertex of a graph. -/
structure Vertex (α : Type) where
  id : VertexId
  element : ElementId
  state : VertexState
  hits : HitCount
  timing : Timing
  forecast : Forecast α
  /-- The outbound edge to each destination. -/
  successors : Table VertexId EdgeId

namespace Vertex

variable {α : Type} [Weight α]

def fresh (id : VertexId) (element : ElementId) (state : VertexState) : Vertex α :=
  { id, element, state, hits := .zero, timing := .empty, forecast := .zero, successors := ∅ }

def recordHit (v : Vertex α) : Vertex α := { v with hits := v.hits.record }

def foldHits (v : Vertex α) : Vertex α := { v with hits := v.hits.fold }

def discardHits (v : Vertex α) : Vertex α := { v with hits := v.hits.discard }

def recordElapsed (v : Vertex α) (key : SampleKey) (duration : UInt64) : Vertex α :=
  { v with timing := v.timing.record key duration }

def settleTimes (v : Vertex α) (finished : List SampleKey) : Vertex α :=
  { v with timing := v.timing.settle finished }

def setForecast (v : Vertex α) (f : Forecast α) : Vertex α := { v with forecast := f }

def clearForecast (v : Vertex α) : Vertex α := v.setForecast .zero

def addSuccessor (v : Vertex α) (dest : VertexId) (edge : EdgeId) : Vertex α :=
  { v with successors := v.successors.insert dest edge }

/-- The identity test of a query vertex; a marker fits nothing. -/
def fits (v : Vertex α) (statement : StatementId) (partitions : PartitionSet)
    (past : Option PartitionSet) (index : UInt32) : Bool :=
  match v.state with
  | .query k => k.fits statement partitions past index
  | _ => false

/-- Whether the vertex has the given identity. -/
def hasKey (v : Vertex α) (key : VertexKey) (usePast : Bool) : Bool :=
  match v.state with
  | .query k => k.same key usePast
  | _ => false

/-- Whether the vertex's share of recent transactions is off its lifetime share by more than
`tolerance`, relative to the lifetime share. Without a lifetime share any hit counts as drift. -/
def isStale (v : Vertex α) (observed : UInt64) (tolerance : α) (lifetime : UInt64) : Bool :=
  if observed = 0 then false
  else if v.hits.folded = 0 ∨ lifetime = 0 then decide (0 < v.hits.window)
  else
    let recent : α := Weight.ratio v.hits.window observed
    let historical : α := Weight.ratio v.hits.folded lifetime
    Weight.lt tolerance (Weight.abs (recent - historical) / historical)

end Vertex

end PathForecast
