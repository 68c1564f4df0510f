import PathForecast.Graph.Learning
import PathForecast.Graph.Recompute

/-!
# Workloads

Replays the traces of a workload into one graph per procedure of a catalog. A trace that its graph
refuses is counted and skipped; a trace whose procedure the catalog does not list is counted as
orphaned.
-/

set_option autoImplicit false

namespace PathForecast

variable {α : Type} [Weight α]

/-- The graph of one procedure with the number of traces it took and refused. -/
structure ProcedureModel (α : Type) where
  graph : Graph α
  learned : Nat
  rejected : Nat

namespace ProcedureModel

def fresh (procedure : Procedure) (settings : ModelSettings α) : ProcedureModel α :=
  ⟨.fresh procedure settings, 0, 0⟩

/-- Offers a trace to the graph. -/
def offer (m : ProcedureModel α) (t : TransactionTrace) : ProcedureModel α :=
  match m.graph.learn t .recorded with
  | .ok (g, _) => { m with graph := g, learned := m.learned + 1 }
  | .error _ => { m with rejected := m.rejected + 1 }

/-- Offers the traces in order and recomputes once. -/
def replay (procedure : Procedure) (settings : ModelSettings α) (traces : List TransactionTrace) :
    Except Fault (ProcedureModel α) := do
  let m := traces.foldl offer (fresh procedure settings)
  let g ← m.graph.recompute
  return { m with graph := g }

end ProcedureModel

/-- The models built from one workload. -/
structure BuildOutcome (α : Type) where
  models : Table ProcedureId (ProcedureModel α)
  /-- Traces of procedures that the catalog does not list. -/
  orphaned : Nat

namespace BuildOutcome

def learned (o : BuildOutcome α) : Nat := o.models.values.foldr (fun m n => m.learned + n) 0

def rejected (o : BuildOutcome α) : Nat := o.models.values.foldr (fun m n => m.rejected + n) 0

end BuildOutcome

/-- Builds a model for each procedure in turn from the traces that no earlier procedure has taken.
A later procedure with the same id takes the place of the earlier one's model. -/
def buildFrom (settings : ModelSettings α) :
    Table ProcedureId (ProcedureModel α) → List TransactionTrace → List Procedure →
      Except Fault (BuildOutcome α)
  | models, traces, [] => .ok ⟨models, traces.length⟩
  | models, traces, p :: ps => do
      let batch := traces.filter fun t => decide (t.procedure = p.id)
      let others := traces.filter fun t => decide (t.procedure ≠ p.id)
      let m ← ProcedureModel.replay p settings batch
      buildFrom settings (models.insert p.id m) others ps

/-- The models of a workload, one per procedure of the catalog. -/
def buildModels (c : Catalog) (traces : List TransactionTrace) (settings : ModelSettings α) :
    Except Fault (BuildOutcome α) :=
  buildFrom settings ∅ traces c.procedures

end PathForecast
