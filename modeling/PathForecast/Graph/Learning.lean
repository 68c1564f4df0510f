import PathForecast.Estimator
import PathForecast.Graph

/-!
# Learning

One observed transaction is folded into the graph of its procedure. The trace is resolved first:
every query is turned into the identity of the vertex it leads to, and whatever is wrong with the
trace is found before the graph changes. Then the path is walked in steps that touch one vertex
and one edge each: `enter`, one `follow` per query, `leave`, and `countTransaction`.
-/

set_option autoImplicit false

namespace PathForecast

/-- The most queries that a trace may have. -/
def maxTraceQueries : Nat := 10000

/-- One query of a resolved trace: the vertex it leads to and the time left from its start. -/
structure Visit where
  key : VertexKey
  remaining : UInt64
deriving DecidableEq

/-- Resolves queries in order. `past` holds the partitions touched so far and `counts` how often
each statement was run. -/
def resolveQueries (p : Procedure) (estimator : Estimator) (t : TransactionTrace)
    (base : PartitionId) :
    PartitionSet → Table StatementId UInt32 → List QueryTrace → Except Fault (List Visit)
  | _, _, [] => .ok []
  | past, counts, q :: qs =>
      if p.declares q.statement then do
        let partitions ← estimator.query q base
        if partitions.isEmpty then throw (.emptyPartitionSet q.statement)
        let index := (counts.get? q.statement).getD 0
        let visit := ⟨⟨q.statement, partitions, past, index⟩, t.remainingFrom q⟩
        let visits ← resolveQueries p estimator t base (past ∪ partitions)
          (counts.insert q.statement (index + 1)) qs
        return visit :: visits
      else .error (.unknownStatement p.id q.statement)

/-- The visits of a trace, or the first thing that is wrong with it. -/
def TransactionTrace.resolve (t : TransactionTrace) (p : Procedure) (estimator : Estimator) :
    Except Fault (List Visit) :=
  if t.procedure ≠ p.id then .error (.procedureMismatch p.id t.procedure)
  else if maxTraceQueries < t.queries.length then .error (.traceTooLong t.queries.length)
  else do
    let base ← estimator.base t
    resolveQueries p estimator t base ∅ ∅ t.queries

def TransactionTrace.sampleKey (t : TransactionTrace) : SampleKey := ⟨t.stop, t.txn⟩

namespace Graph

variable {α : Type} [Weight α]

/-- Counts a transaction in at the start marker. -/
def enter (g : Graph α) (sample : SampleKey) (elapsed : UInt64) : Graph α :=
  g.updateVertex Markers.fixed.start fun v => (v.recordElapsed sample elapsed).recordHit

/-- Moves a transaction from one vertex along an edge to another, creating the edge if needed. -/
def traverseEdge (g : Graph α) (sample : SampleKey) (source dest : VertexId)
    (remaining : UInt64) : Graph α :=
  let (g, e) := g.ensureEdge source dest
  (g.updateVertex dest fun v => v.recordHit.recordElapsed sample remaining).updateEdge e
    (·.recordHit)

/-- Moves a transaction on to the vertex of its next query. -/
def follow (g : Graph α) (sample : SampleKey) (previous : VertexId) (visit : Visit) :
    Graph α × VertexId :=
  let (g, next) := g.ensureVertex visit.key
  (g.traverseEdge sample previous next visit.remaining, next)

/-- The marker in which a transaction ends. -/
def terminal (aborted : Bool) : VertexId :=
  if aborted then Markers.fixed.abort else Markers.fixed.commit

/-- Ends a transaction. -/
def leave (g : Graph α) (sample : SampleKey) (previous : VertexId) (aborted : Bool) : Graph α :=
  g.traverseEdge sample previous (terminal aborted) 0

def countTransaction (g : Graph α) : Graph α :=
  { g with transactionCount := g.transactionCount + 1 }

/-- Follows the visits from a vertex; the answer lists the vertices reached, in order. -/
def followAll (g : Graph α) (sample : SampleKey) (previous : VertexId) :
    List Visit → Graph α × List VertexId
  | [] => (g, [])
  | visit :: visits =>
      let (g, next) := g.follow sample previous visit
      let (g, path) := g.followAll sample next visits
      (g, next :: path)

/-- Walks a resolved trace through the graph; the answer is its path, markers included. -/
def walk (g : Graph α) (t : TransactionTrace) (visits : List Visit) : Graph α × List VertexId :=
  let start := Markers.fixed.start
  let (g, path) := (g.enter t.sampleKey t.elapsed).followAll t.sampleKey start visits
  let g := g.leave t.sampleKey ((start :: path).getLastD start) t.aborted
  (g.countTransaction, start :: path ++ [terminal t.aborted])

/-- Learns one transaction. A trace that cannot be resolved is refused as a whole. -/
def learn (g : Graph α) (t : TransactionTrace) (estimator : Estimator) :
    Except Fault (Graph α × List VertexId) := do
  let _ ← g.markers
  let visits ← t.resolve g.procedure estimator
  return g.walk t visits

end Graph

end PathForecast
