import Mathlib.Tactic
import PathForecast.Proofs.Identity
import PathForecast.Proofs.Training

/-!
# Interleaved transactions

Several transactions learn into one graph at the same time. Each of them takes its steps in order:
it enters at the start marker, follows its visits one by one, leaves, and is counted. A step is
taken as a whole, so a run is told by the list of whose turn it is. Main statement: `exists_serial`,
learning one transaction after the other is one of the runs.
-/

set_option autoImplicit false

namespace PathForecast

inductive Step where
  | enter
  | follow (visit : Visit)
  | leave
  | count

/-- A transaction under way: where it is, and the steps that it still has to take. -/
structure Learner where
  trace : TransactionTrace
  previous : VertexId
  pending : List Step

def Learner.fresh (t : TransactionTrace) (visits : List Visit) : Learner :=
  ⟨t, Markers.fixed.start, .enter :: (visits.map .follow ++ [.leave, .count])⟩

def admitted (p : Procedure) (ts : List (TransactionTrace × Estimator)) : List Learner :=
  ts.filterMap fun t => (t.1.resolve p t.2).toOption.map (Learner.fresh t.1)

theorem admitted_of_error {p : Procedure} {t : TransactionTrace × Estimator}
    {ts : List (TransactionTrace × Estimator)} {fault : Fault}
    (h : t.1.resolve p t.2 = .error fault) : admitted p (t :: ts) = admitted p ts :=
  List.filterMap_cons_none (by rw [h]; rfl)

theorem admitted_of_ok {p : Procedure} {t : TransactionTrace × Estimator}
    {ts : List (TransactionTrace × Estimator)} {visits : List Visit}
    (h : t.1.resolve p t.2 = .ok visits) :
    admitted p (t :: ts) = .fresh t.1 visits :: admitted p ts :=
  List.filterMap_cons_some (by rw [h]; rfl)

variable {α : Type} [Weight α]

theorem Graph.exists_learn_error (g : Graph α) {t : TransactionTrace} {estimator : Estimator}
    {fault : Fault} (h : t.resolve g.procedure estimator = .error fault) :
    ∃ fault, g.learn t estimator = .error fault := by
  cases hlearn : g.learn t estimator with
  | error fault => exact ⟨fault, rfl⟩
  | ok r =>
      obtain ⟨-, visits, hvisits, -⟩ := (learn_eq_ok_iff g t estimator r).mp hlearn
      rw [h] at hvisits
      cases hvisits

/-- A refused trace leaves the graph as it is. -/
theorem Graph.perform_learn_of_error (g : Graph α) {t : TransactionTrace} {estimator : Estimator}
    {fault : Fault} (h : t.resolve g.procedure estimator = .error fault) :
    g.perform (.learn t estimator) = g := by
  obtain ⟨_, hlearn⟩ := g.exists_learn_error h
  exact perform_of_refused hlearn

theorem Graph.perform_learn_of_ok (g : Graph α) (hseeded : g.seeded = true) {t : TransactionTrace}
    {estimator : Estimator} {visits : List Visit}
    (h : t.resolve g.procedure estimator = .ok visits) :
    g.perform (.learn t estimator) = (g.walk t visits).1 := by
  show g.orUnchanged (g.learn t estimator) = _
  rw [(learn_eq_ok_iff g t estimator _).mpr ⟨hseeded, visits, h, rfl⟩]
  rfl

/-- The next step of a transaction. -/
def Graph.advance (g : Graph α) (s : Learner) : Graph α × Learner :=
  match s.pending with
  | [] => (g, s)
  | .enter :: rest => (g.enter s.trace.sampleKey s.trace.elapsed, { s with pending := rest })
  | .follow visit :: rest =>
      let (g, next) := g.follow s.trace.sampleKey s.previous visit
      (g, { s with previous := next, pending := rest })
  | .leave :: rest =>
      (g.leave s.trace.sampleKey s.previous s.trace.aborted, { s with pending := rest })
  | .count :: rest => (g.countTransaction, { s with pending := rest })

theorem Graph.advance_fresh (g : Graph α) (t : TransactionTrace) (visits : List Visit) :
    g.advance (.fresh t visits) =
      (g.enter t.sampleKey t.elapsed,
        ⟨t, Markers.fixed.start, visits.map .follow ++ [.leave, .count]⟩) := rfl

theorem Graph.advance_follow (g : Graph α) (t : TransactionTrace) (previous : VertexId)
    (visit : Visit) (rest : List Step) :
    g.advance ⟨t, previous, .follow visit :: rest⟩ =
      ((g.follow t.sampleKey previous visit).1,
        ⟨t, (g.follow t.sampleKey previous visit).2, rest⟩) := rfl

/-- A graph and the transactions that learn into it. -/
structure Shared (α : Type) where
  graph : Graph α
  learners : List Learner

namespace Shared

/-- One transaction takes its next step, if it has one. -/
def turn (w : Shared α) (i : Nat) : Shared α :=
  match w.learners[i]? with
  | none => w
  | some s => ⟨(w.graph.advance s).1, w.learners.set i (w.graph.advance s).2⟩

def run (w : Shared α) (schedule : List Nat) : Shared α := schedule.foldl turn w

def Finished (w : Shared α) : Prop := ∀ s ∈ w.learners, s.pending = []

theorem run_cons (w : Shared α) (i : Nat) (schedule : List Nat) :
    w.run (i :: schedule) = (w.turn i).run schedule := rfl

theorem run_append (w : Shared α) (schedule schedule' : List Nat) :
    w.run (schedule ++ schedule') = (w.run schedule).run schedule' := List.foldl_append

/-! ## One transaction after the other -/

theorem turn_middle (g : Graph α) (before after : List Learner) (s : Learner) :
    (⟨g, before ++ s :: after⟩ : Shared α).turn before.length =
      ⟨(g.advance s).1, before ++ (g.advance s).2 :: after⟩ := by
  simp [turn]

/-- A transaction that is alone on its turns follows its visits like a walk. -/
theorem run_follow (t : TransactionTrace) (before after : List Learner) (rest : List Step)
    (visits : List Visit) :
    ∀ (g : Graph α) (previous : VertexId),
      (⟨g, before ++ ⟨t, previous, visits.map .follow ++ rest⟩ :: after⟩ : Shared α).run
          (List.replicate visits.length before.length) =
        ⟨(g.followAll t.sampleKey previous visits).1,
          before ++ ⟨t, (previous :: (g.followAll t.sampleKey previous visits).2).getLastD previous,
            rest⟩ :: after⟩ := by
  induction visits with
  | nil => exact fun _ _ => rfl
  | cons visit visits ih =>
      intro g previous
      rw [List.length_cons, List.replicate_succ, run_cons, turn_middle, List.map_cons,
        List.cons_append, Graph.advance_follow, ih, Graph.followAll_cons, List.getLastD_cons,
        List.getLastD_cons, List.getLastD_cons]

/-- A transaction that is alone on its turns is a walk. -/
theorem exists_walk (g : Graph α) (t : TransactionTrace) (visits : List Visit)
    (before after : List Learner) : ∃ schedule s, s.pending = [] ∧
      (⟨g, before ++ Learner.fresh t visits :: after⟩ : Shared α).run schedule =
        ⟨(g.walk t visits).1, before ++ s :: after⟩ := by
  let i := before.length
  refine ⟨i :: (List.replicate visits.length i ++ [i, i]), ⟨t, g.lastFollowed t visits, []⟩, rfl,
    ?_⟩
  rw [run_cons, turn_middle, Graph.advance_fresh, run_append, run_follow, run_cons, turn_middle,
    run_cons, turn_middle]
  rfl

/-- Learning traces one after the other is a run of their transactions. -/
theorem exists_serial (p : Procedure) (ts : List (TransactionTrace × Estimator)) :
    ∀ (g : Graph α) (before : List Learner), g.Marked → g.seeded = true → g.procedure = p →
      ∃ schedule after, (∀ s ∈ after, s.pending = []) ∧
        (⟨g, before ++ admitted p ts⟩ : Shared α).run schedule =
          ⟨g.performAll (Graph.lessons ts), before ++ after⟩ := by
  induction ts with
  | nil => exact fun g before _ _ _ => ⟨[], [], nofun, rfl⟩
  | cons t ts ih =>
      intro g before hmarked hseeded hp
      have hgrow := hmarked.perform_growth (.learn t.1 t.2)
      have hrest := fun before => ih (g.perform (.learn t.1 t.2)) before (hgrow.marked hmarked)
        (hgrow.seeded_of_seeded hseeded) (hgrow.procedure_eq.trans hp)
      show ∃ schedule after, _ ∧ _ =
        (⟨(g.perform (.learn t.1 t.2)).performAll (Graph.lessons ts), before ++ after⟩ : Shared α)
      cases hresolve : t.1.resolve p t.2 with
      | error fault =>
          rw [g.perform_learn_of_error (hp ▸ hresolve)] at hrest ⊢
          rw [admitted_of_error hresolve]
          exact hrest before
      | ok visits =>
          rw [g.perform_learn_of_ok hseeded (hp ▸ hresolve)] at hrest ⊢
          obtain ⟨first, s, hs, hwalk⟩ := exists_walk g t.1 visits before (admitted p ts)
          obtain ⟨schedule, after, hdone, hrun⟩ := hrest (before ++ [s])
          refine ⟨first ++ schedule, s :: after, List.forall_mem_cons.mpr ⟨hs, hdone⟩, ?_⟩
          rw [List.append_assoc, List.append_assoc] at hrun
          rw [admitted_of_ok hresolve, run_append, hwalk]
          exact hrun

end Shared

end PathForecast
