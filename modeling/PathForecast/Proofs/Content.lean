import Mathlib
import PathForecast.Proofs.Schedules

/-!
# Content

Two graphs have the same content if they agree up to the names of their vertices, edges and
elements: the same identities with the same hits, and between them the same pairs with the same hits
and probabilities. Main statements: `Recorded.summary`, a recomputed graph has exactly the content
of the passages that it has recorded, and `Shared.sameContent_run`, whatever turns the transactions
have taken, the content is that of learning one after the other.
-/

set_option autoImplicit false

namespace PathForecast

/-- After a recompute, the lifetime hits are those recorded, as far as a counter goes. -/
theorem total_fold_recorded (n : Nat) : (recorded n).fold.total = n.toUInt64 := by
  have hrecorded : recorded n = ⟨0, n.toUInt64⟩ := by
    induction n with
    | zero => rfl
    | succ n ih =>
        rw [recorded, Function.iterate_succ_apply', ← recorded, ih]
        exact congrArg (HitCount.mk 0) (UInt64.ofNat_add n 1).symm
  rw [hrecorded, HitCount.fold, HitCount.total, ← UInt64.toNat_inj, toNat_satAdd]
  have hlt := (0 + n.toUInt64).toNat_lt
  simp only [UInt64.zero_add] at hlt ⊢
  simp only [UInt64.toNat_zero, Nat.add_zero]
  exact min_eq_left (Nat.le_sub_one_of_lt hlt)

namespace Graph

variable {α : Type}

/-! ## What a graph tells without handles -/

def vertexRows (g : Graph α) : List (VertexState × UInt64) :=
  g.vertices.toList.map fun x => (g.spot x.id, x.hits.total)

def edgeRows (g : Graph α) : List ((VertexState × VertexState) × UInt64 × α) :=
  g.edges.toList.map fun e => ((g.spot e.source, g.spot e.dest), e.hits.total, e.probability)

/-- Two graphs agree up to the names and the order of their vertices and edges. -/
structure SameContent (g k : Graph α) : Prop where
  vertices : g.vertexRows.Perm k.vertexRows
  edges : g.edgeRows.Perm k.edgeRows
  transactionCount : g.transactionCount = k.transactionCount

variable [Weight α]

/-- The probability of an edge that has taken a share of the hits of its source. -/
def share (hits sourceHits : UInt64) : α :=
  if sourceHits = 0 then 0 else Weight.least (Weight.ratio hits sourceHits) 1

/-- A graph has one vertex for each identity and one edge for each pair of identities of a list of
passages, and no hit is lost or duplicated. -/
structure Summary (g : Graph α) (J : List Passage) : Prop where
  mem_places : ∀ s, s ∈ g.places ↔ s ∈ VertexState.markers ++ arrivals J
  nodup_places : g.places.Nodup
  mem_links : ∀ l, l ∈ g.links ↔ l ∈ crossings J
  nodup_links : g.links.Nodup
  hits_vertex : ∀ x ∈ g.vertices, x.hits.total = ((arrivals J).count (g.spot x.id)).toUInt64
  hits_edge : ∀ e ∈ g.edges,
    e.hits.total = ((crossings J).count (g.spot e.source, g.spot e.dest)).toUInt64
  probability : ∀ e ∈ g.edges, e.probability =
    share ((crossings J).count (g.spot e.source, g.spot e.dest)).toUInt64
      ((arrivals J).count (g.spot e.source)).toUInt64
  transactionCount : g.transactionCount = (J.count .counted).toUInt64

namespace Summary

variable {g k : Graph α} {J : List Passage}

theorem vertexRows_eq (hg : g.Summary J) :
    g.vertexRows = g.places.map fun s => (s, ((arrivals J).count s).toUInt64) := by
  rw [vertexRows, places, List.map_map]
  exact List.map_congr_left fun x hx => by
    rw [hg.hits_vertex x (Array.mem_toList_iff.mp hx)]
    rfl

theorem edgeRows_eq (hg : g.Summary J) :
    g.edgeRows = g.links.map fun l => (l, ((crossings J).count l).toUInt64,
      share ((crossings J).count l).toUInt64 ((arrivals J).count l.1).toUInt64) := by
  rw [edgeRows, links, List.map_map]
  exact List.map_congr_left fun e he => by
    rw [hg.hits_edge e (Array.mem_toList_iff.mp he), hg.probability e (Array.mem_toList_iff.mp he)]
    rfl

/-- The same passages make the same content. -/
theorem sameContent (hg : g.Summary J) (hk : k.Summary J) : g.SameContent k where
  vertices := by
    rw [hg.vertexRows_eq, hk.vertexRows_eq]
    refine List.Perm.map _ ((List.perm_ext_iff_of_nodup hg.nodup_places hk.nodup_places).mpr ?_)
    exact fun s => (hg.mem_places s).trans (hk.mem_places s).symm
  edges := by
    rw [hg.edgeRows_eq, hk.edgeRows_eq]
    refine List.Perm.map _ ((List.perm_ext_iff_of_nodup hg.nodup_links hk.nodup_links).mpr ?_)
    exact fun l => (hg.mem_links l).trans (hk.mem_links l).symm
  transactionCount := hg.transactionCount.trans hk.transactionCount.symm

end Summary

/-! ## What a recompute makes of recorded passages -/

/-- The first recompute gives every edge its share, and none if its source has no hits. -/
theorem share_recompute {g r : Graph α} (h : g.recompute = .ok r)
    (hunweighted : ∀ e ∈ g.edges, e.probability = 0) {e : Edge α} (he : e ∈ r.edges)
    {x : Vertex α} (hx : r.vertex? e.source = some x) :
    e.probability = share e.hits.total x.hits.total := by
  by_cases hzero : x.hits.total = 0
  · obtain ⟨e₀, he₀, rfl⟩ := exists_edge_recompute h he hx
    rw [share, if_pos hzero, Edge.derive, if_pos hzero]
    exact hunweighted e₀ he₀
  · rw [share, if_neg hzero]
    exact probability_recompute h he hx hzero

namespace Recorded

variable {g r : Graph α} {J : List Passage}

theorem mem_places_iff (hJ : g.Recorded J) (hg : g.Coherent) (s : VertexState) :
    s ∈ g.places ↔ s ∈ VertexState.markers ++ arrivals J := by
  rw [hg.mem_places_iff]
  refine ⟨fun ⟨v, hv⟩ => hJ.place_mem hv, fun hs => ?_⟩
  rcases List.mem_append.mp hs with hs | hs
  · simp only [VertexState.markers, List.mem_cons, List.not_mem_nil, or_false] at hs
    rcases hs with rfl | rfl | rfl
    · exact ⟨_, place?_eq (hg.marked.start hg.seeded)⟩
    · exact ⟨_, place?_terminal hg false⟩
    · exact ⟨_, place?_terminal hg true⟩
  · exact hJ.present s hs

theorem mem_links_iff (hJ : g.Recorded J) (hg : g.Coherent) (l : VertexState × VertexState) :
    l ∈ g.links ↔ l ∈ crossings J := by
  obtain ⟨s, d⟩ := l
  rw [hg.mem_links_iff]
  constructor
  · rintro ⟨v, w, hv, hw, hjoined⟩
    exact (hJ.joined v w s d hv hw).mp hjoined
  · intro hl
    obtain ⟨v, hv⟩ := hJ.departed _ hl
    obtain ⟨w, hw⟩ := hJ.present d (arrives_of_crosses hl)
    exact ⟨v, w, hv, hw, (hJ.joined v w s d hv hw).mpr hl⟩

/-- The first recompute turns recorded passages into their summary. -/
theorem summary (hJ : g.Recorded J) (hg : g.Coherent) (h : g.recompute = .ok r) :
    r.Summary J := by
  have hlayout := layout_of_recompute h
  have hr : r.Coherent := hg.of_layout hlayout
  have hplace : ∀ v, r.place? v = g.place? v := place?_of_layout hlayout
  have hspot : ∀ v, r.spot v = g.spot v := fun v => by rw [spot, spot, hplace]
  have hplaces : ∀ s, s ∈ r.places ↔ s ∈ g.places := by
    intro s
    simp only [hr.mem_places_iff, hg.mem_places_iff, hplace]
  have hlinks : ∀ l, l ∈ r.links ↔ l ∈ g.links := by
    rintro ⟨s, d⟩
    simp only [hr.mem_links_iff, hg.mem_links_iff, hplace, edgeBetween_of_layout hlayout]
  have hvertex : ∀ {v x}, r.vertex? v = some x →
      x.hits.total = ((arrivals J).count (r.spot v)).toUInt64 := by
    intro v x hx
    have hat : g.place? v = some (r.spot v) := by
      rw [← hplace]
      exact place?_spot (slot_lt_of_vertex? hx)
    rw [hits_eq_vertexHits hx, vertexHits_recompute h, hJ.visits v _ hat]
    exact total_fold_recorded _
  have hedge : ∀ e ∈ r.edges,
      e.hits.total = ((crossings J).count (r.spot e.source, r.spot e.dest)).toUInt64 := by
    intro e he
    obtain ⟨hs, hd⟩ := hr.place?_ends he
    rw [hplace] at hs hd
    rw [hits_eq_edgeHits hr.arranged (hr.arranged.edge?_id he), edgeHits_recompute h,
      hJ.crossed _ _ _ _ hs hd]
    exact total_fold_recorded _
  refine ⟨fun s => (hplaces s).trans (hJ.mem_places_iff hg s), hr.nodup_places,
    fun l => (hlinks l).trans (hJ.mem_links_iff hg l), hr.nodup_links,
    fun x hx => hvertex (hr.arranged.vertex?_id hx), hedge, fun e he => ?_, ?_⟩
  · obtain ⟨x, hx⟩ := Option.isSome_iff_exists.mp
      ((r.isSome_vertex?_iff e.source).mpr (slot_lt_of_place? (hr.place?_ends he).1))
    rw [share_recompute h hJ.unweighted he hx, hvertex hx, hedge e he]
  · rw [(transactions_recompute h).1]
    exact hJ.transactionCount

end Recorded

end Graph

/-! ## Runs and their recomputes -/

theorem count_counted_passages (usePast aborted : Bool) (visits : List Visit) (s : VertexState) :
    (passages usePast aborted s (visits.map .follow ++ [.leave, .count])).count .counted = 1 := by
  induction visits generalizing s with
  | nil => rfl
  | cons visit visits ih =>
      rw [List.map_cons, List.cons_append, passages, List.count_cons_of_ne (by simp)]
      exact ih _

/-- Each accepted trace is counted once. -/
theorem count_counted_script (p : Procedure) (usePast : Bool)
    (ts : List (TransactionTrace × Estimator)) :
    (script p usePast ts).count .counted = (admitted p ts).length := by
  induction ts with
  | nil => rfl
  | cons t ts ih =>
      cases h : t.1.resolve p t.2 with
      | error fault =>
          rw [script, admitted_of_error h]
          exact ih
      | ok visits =>
          rw [script, admitted_of_ok h, List.flatMap_cons, List.count_append, List.length_cons,
            Nat.add_comm]
          refine congrArg₂ _ ih ?_
          rw [Learner.fresh, passages, List.count_cons_of_ne (by simp)]
          exact count_counted_passages usePast _ visits _

namespace Shared

open PathForecast.Graph

variable {α : Type} [Weight α]

/-- Whatever turns the transactions have taken, and in whatever order they have come, a recompute
finds the content that it would find if they had been learned one after the other. There is one
vertex for each identity and one edge for each pair of identities, and no hit is lost or duplicated.
-/
theorem sameContent_run {p : Procedure} {s : ModelSettings α}
    {ts ts' : List (TransactionTrace × Estimator)}
    (hroom : Roomy (script p s.usePastPartitions ts)) (hperm : ts'.Perm ts) {schedule : List Nat}
    (hfinished : ((⟨Graph.fresh p s, admitted p ts'⟩ : Shared α).run schedule).Finished) :
    ∃ r k, ((⟨Graph.fresh p s, admitted p ts'⟩ : Shared α).run schedule).graph.recompute = .ok r ∧
      ((Graph.fresh p s).performAll (lessons ts)).recompute = .ok k ∧
      r.SameContent k ∧ r.Summary (script p s.usePastPartitions ts) ∧
      r.transactionCount = (admitted p ts).length.toUInt64 := by
  obtain ⟨hrun, hrunJ⟩ := recorded_run hroom hperm hfinished
  obtain ⟨hserial, hserialJ⟩ := recorded_lessons hroom (.refl ts)
  obtain ⟨r, hr⟩ := exists_recompute hrun.arranged hrun.seeded
  obtain ⟨k, hk⟩ := exists_recompute hserial.arranged hserial.seeded
  have hsummary := hrunJ.summary hrun hr
  refine ⟨r, k, hr, hk, hsummary.sameContent (hserialJ.summary hserial hk), hsummary, ?_⟩
  rw [hsummary.transactionCount, count_counted_script]

def opposite : List (TransactionTrace × Estimator) :=
  [(transferTrace 1 false [10, 11], .recorded), (transferTrace 2 true [11, 10], .recorded)]

/-- The two transactions of `opposite`, the second one first, after a race. -/
def oppositeRace : Shared Rat :=
  (⟨Graph.fresh transfer .standard, admitted transfer opposite.reverse⟩ : Shared Rat).run
    [0, 0, 1, 1, 1, 0, 1, 0, 0, 1]

/-- The race and the replay agree, although they have created their vertices in different orders. -/
theorem sameContent_run_opposite :
    Roomy (script transfer true opposite) ∧ oppositeRace.Finished ∧
      ∃ r k, oppositeRace.graph.recompute = .ok r ∧
        ((Graph.fresh transfer (.standard : ModelSettings Rat)).performAll
          (lessons opposite)).recompute = .ok k ∧
        r.SameContent k ∧ r.transactionCount = 2 ∧ r.state? ⟨3⟩ ≠ k.state? ⟨3⟩ := by
  have hroom : Roomy (script transfer true opposite) := ⟨by decide +kernel, by decide +kernel⟩
  have hfinished : oppositeRace.Finished := by
    unfold Finished
    decide +kernel
  obtain ⟨r, k, hr, hk, hsame, -, hcount⟩ :=
    sameContent_run hroom (List.reverse_perm opposite) hfinished
  refine ⟨hroom, hfinished, r, k, hr, hk, hsame, hcount.trans (by decide +kernel), ?_⟩
  rw [state?_of_layout (layout_of_recompute hr), state?_of_layout (layout_of_recompute hk)]
  decide +kernel

end Shared

end PathForecast
