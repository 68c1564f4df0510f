import PathForecast.Graph.Learning
import PathForecast.Graph.Recompute

/-!
# Histories

The changes that a caller can make to a graph, and the graphs that they lead to. A change that is
refused leaves the graph as it is. Main statement: the reachable graphs are those that a list of
changes makes of the empty graph.
-/

set_option autoImplicit false

namespace PathForecast

/-- One change to a graph. Questions are among them where a graph remembers the answer. -/
inductive Change where
  | seed
  | learn (trace : TransactionTrace) (estimator : Estimator)
  | recompute
  | resetCounters
  | addEdge (source dest : VertexId)
  | askSuccessors (vertex : VertexId)
  | rememberBatchEnd (key : BatchKey) (outcome : BatchEnd)
  | recordMisprediction
  | hitVertex (vertex : VertexId)
  | foldVertex (vertex : VertexId)
  | timeVertex (vertex : VertexId) (sample : SampleKey) (duration : UInt64)
  | clearForecast (vertex : VertexId)
  | hitEdge (edge : EdgeId)
  | foldEdge (edge : EdgeId)
  | deriveEdge (edge : EdgeId) (sourceHits : UInt64)

namespace Graph

variable {α : Type} [Weight α]

/-- The graph after an operation, which is unchanged if it was refused. -/
def orUnchanged {β : Type} (g : Graph α) : Except Fault (Graph α × β) → Graph α
  | .ok (g, _) => g
  | .error _ => g

/-- The graph after a change. -/
def perform (g : Graph α) : Change → Graph α
  | .seed => g.seed
  | .learn t estimator => g.orUnchanged (g.learn t estimator)
  | .recompute => g.recompute.toOption.getD g
  | .resetCounters => g.resetCounters
  | .addEdge source dest => g.orUnchanged (g.addEdge source dest)
  | .askSuccessors v => g.orUnchanged (g.successors v)
  | .rememberBatchEnd key outcome => (g.addCachedBatchEnd key outcome).1
  | .recordMisprediction => g.recordMisprediction
  | .hitVertex v => g.updateVertex v (·.recordHit)
  | .foldVertex v => g.updateVertex v (·.foldHits)
  | .timeVertex v sample duration => g.updateVertex v (·.recordElapsed sample duration)
  | .clearForecast v => g.updateVertex v (·.clearForecast)
  | .hitEdge e => g.updateEdge e (·.recordHit)
  | .foldEdge e => g.updateEdge e (·.foldHits)
  | .deriveEdge e sourceHits => g.updateEdge e (·.derive sourceHits)

/-- The graph after changes, the first one first. -/
def performAll (g : Graph α) (cs : List Change) : Graph α := cs.foldl perform g

@[simp] theorem performAll_nil (g : Graph α) : g.performAll [] = g := rfl

@[simp] theorem performAll_cons (g : Graph α) (c : Change) (cs : List Change) :
    g.performAll (c :: cs) = (g.perform c).performAll cs := rfl

/-- Changes made in two goes are the same changes made at once. -/
theorem performAll_append (g : Graph α) (cs ds : List Change) :
    g.performAll (cs ++ ds) = (g.performAll cs).performAll ds :=
  List.foldl_append

/-- The graphs of a procedure that changes can lead to. -/
inductive Reachable (p : Procedure) (s : ModelSettings α) : Graph α → Prop where
  | empty : Reachable p s (empty p s)
  | step {g : Graph α} (c : Change) : Reachable p s g → Reachable p s (g.perform c)

theorem Reachable.performAll {p : Procedure} {s : ModelSettings α} {g : Graph α}
    (h : Reachable p s g) (cs : List Change) : Reachable p s (g.performAll cs) := by
  induction cs generalizing g with
  | nil => exact h
  | cons c cs ih => exact ih (h.step c)

/-- The reachable graphs are those that a list of changes makes of the empty graph. -/
theorem reachable_iff {p : Procedure} {s : ModelSettings α} {g : Graph α} :
    Reachable p s g ↔ ∃ cs, g = (Graph.empty p s).performAll cs := by
  constructor
  · intro h
    induction h with
    | empty => exact ⟨[], rfl⟩
    | step c _ ih =>
        obtain ⟨cs, rfl⟩ := ih
        exact ⟨cs ++ [c], by rw [performAll_append]; rfl⟩
  · rintro ⟨cs, rfl⟩
    exact Reachable.empty.performAll cs

end Graph

end PathForecast
