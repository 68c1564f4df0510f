import PathForecast.Proofs.Conservation
import PathForecast.Proofs.Windows

/-!
# Recomputing twice

Once a graph has been recomputed there is nothing left to do: no sample waits, every window is
closed, and the hits that the probabilities are derived from have not changed. Each stage is shown
to leave alone what the later stages made, whatever the weights are and whatever was done to the
graph before. Main statement: `recompute_recompute`, a second recompute of a reachable graph changes
nothing but the number of recomputes.
-/

set_option autoImplicit false

namespace PathForecast

variable {α : Type}

/-! ## One edge -/

theorem Edge.foldHits_of_closed {e : Edge α} (h : e.hits.fold = e.hits) : e.foldHits = e := by
  rw [foldHits, h]

variable [Weight α]

/-- A source without hits leaves the probability as it is, both times. -/
theorem Edge.derive_derive (e : Edge α) (sourceHits : UInt64) :
    (e.derive sourceHits).derive sourceHits = e.derive sourceHits := by
  by_cases h : sourceHits = 0
  · rw [derive, if_pos h]
  · simp only [derive, if_neg h]

namespace Graph

/-- An edge with its probability derived from the hits of its source, if the source is there. -/
def derived (g : Graph α) (e : Edge α) : Edge α :=
  match g.vertex? e.source with
  | some x => e.derive x.hits.total
  | none => e

theorem edges_deriveProbabilities (g : Graph α) :
    g.deriveProbabilities.edges = g.edges.map g.derived := rfl

theorem derived_congr {g k : Graph α} (h : k.vertices = g.vertices) (e : Edge α) :
    k.derived e = g.derived e := by
  rw [derived, derived, vertex?, vertex?, h]

theorem derived_derived (g : Graph α) (e : Edge α) : g.derived (g.derived e) = g.derived e := by
  cases hx : g.vertex? e.source with
  | none => simp only [derived, hx]
  | some x =>
      have hsource : (e.derive x.hits.total).source = e.source :=
        (((e.derive x.hits.total).frame_eq_iff e).mp (e.frame_derive _)).2.2.1
      simp only [derived, hx, hsource, Edge.derive_derive]

/-! ## The stages of a second recompute -/

section Stages

variable {g r : Graph α} (h : g.recompute = .ok r)

include h

theorem vertices_closeWindow_recompute : r.closeWindow.vertices = g.closeWindow.vertices :=
  ((lockstep_recompute h).vertices_closeWindow (recompute_parts h).2.2.symm).symm

theorem edges_closeWindow_recompute : r.closeWindow.edges = r.edges := by
  apply Array.ext_getElem?
  intro j
  rw [closeWindow, Array.getElem?_map]
  cases he : r.edges[j]? with
  | none => rfl
  | some e =>
      obtain ⟨f, -, hhits⟩ := exists_hits_recompute h he
      rw [Option.map_some, Edge.foldHits_of_closed (by rw [hhits, HitCount.fold_fold])]

/-- The same sources have the same hits, and a probability that is derived is not derived anew. -/
theorem edges_deriveProbabilities_recompute :
    r.closeWindow.deriveProbabilities.edges = g.closeWindow.deriveProbabilities.edges := by
  rw [edges_deriveProbabilities, edges_closeWindow_recompute h, (recompute_parts h).1,
    edges_deriveProbabilities, Array.map_map]
  refine Array.map_congr_left fun e _ => ?_
  rw [Function.comp_apply, derived_congr (vertices_closeWindow_recompute h), derived_derived]

/-- So the second propagation finds what the first one found. -/
theorem vertices_propagate_recompute :
    r.closeWindow.deriveProbabilities.propagate.vertices = r.vertices := by
  have hpropagate : r.closeWindow.deriveProbabilities.propagate.vertices =
      g.closeWindow.deriveProbabilities.propagate.vertices :=
    vertices_propagate (vertices_closeWindow_recompute h) (edges_deriveProbabilities_recompute h)
  obtain ⟨-, -, rfl⟩ := (recompute_eq_ok_iff g r).mp h
  exact hpropagate

theorem recomputed_eq :
    { r.closeWindow.deriveProbabilities.propagate with
      recomputeCount := r.recomputeCount + 1
      transactionsAtRecompute := r.transactionCount } =
    { r with recomputeCount := r.recomputeCount + 1 } := by
  have hedges : r.closeWindow.deriveProbabilities.propagate.edges = r.edges :=
    (edges_deriveProbabilities_recompute h).trans (recompute_parts h).1.symm
  have hsince : r.transactionCount = r.transactionsAtRecompute := by
    rw [(transactions_recompute h).1, (transactions_recompute h).2]
  simp only [mk.injEq]
  exact ⟨rfl, rfl, rfl, vertices_propagate_recompute h, hedges, rfl, rfl, rfl, rfl, rfl, hsince,
    rfl, trivial⟩

end Stages

/-! ## Reachable graphs -/

/-- Every reachable graph with its markers can be recomputed, and a second recompute changes nothing
but the number of recomputes. -/
theorem recompute_recompute {p : Procedure} {s : ModelSettings α} {g : Graph α}
    (h : Reachable p s g) (hseeded : g.seeded = true) :
    ∃ r, g.recompute = .ok r ∧
      r.recompute = .ok { r with recomputeCount := r.recomputeCount + 1 } := by
  have hanchored := anchored_of_reachable h
  obtain ⟨r, hr⟩ := hanchored.exists_recompute hseeded
  have hgrow : Growth g r := .retain (layout_of_recompute hr)
  refine ⟨r, hr, (recompute_eq_ok_iff r _).mpr ⟨hgrow.seeded_of_seeded hseeded, ?_, ?_⟩⟩
  · exact (hgrow.anchored hanchored).missingEnd?_eq_none
  · exact (recomputed_eq hr).symm

/-- A graph that was learned from, recomputed, reset and changed by hand: it has a loop, an edge
that leaves a terminal marker and has no hits, a probability above its share, and hits and samples
of an open window. -/
def handled : List Change :=
  [.seed, .learn (transferTrace 1 false [10, 11]) .recorded, .recompute,
    .learn (transferTrace 2 true [11, 11]) .recorded, .resetCounters, .addEdge ⟨3⟩ ⟨3⟩,
    .addEdge ⟨1⟩ ⟨3⟩, .deriveEdge ⟨1⟩ 1, .hitEdge ⟨0⟩, .hitVertex ⟨4⟩, .foldVertex ⟨4⟩,
    .timeVertex ⟨3⟩ ⟨9, ⟨7⟩⟩ 5, .clearForecast ⟨3⟩,
    .learn (transferTrace 3 false [11]) .recorded]

theorem recompute_recompute_handled :
    ((empty transfer (.standard : ModelSettings Rat)).performAll handled).seeded = true ∧
      ∃ r, ((empty transfer (.standard : ModelSettings Rat)).performAll handled).recompute = .ok r ∧
        r.recompute = .ok { r with recomputeCount := r.recomputeCount + 1 } := by
  have hreach : Reachable transfer .standard
      ((empty transfer (.standard : ModelSettings Rat)).performAll handled) :=
    Reachable.empty.performAll handled
  have hseeded :
      ((empty transfer (.standard : ModelSettings Rat)).performAll handled).seeded = true := by
    decide +kernel
  exact ⟨hseeded, recompute_recompute hreach hseeded⟩

end Graph

end PathForecast
