import Mathlib
import PathForecast.Proofs.Content
import PathForecast.Proofs.SinglePartition

/-!
# Arrival order

Two graphs that have recorded the same passages number their vertices and edges in different orders,
and the traversal follows those numbers. The order of a tally does not matter, but which edges close
a cycle does: that depends on where the traversal came from. Main statements: `outlook_eq_of_drops`,
graphs that leave out the same edges forecast the same, `forecast_perm`, ahead of a vertex without
cycles the order of arrival changes no forecast, and `forecast_depends_on_arrival`, with cycles it
does.
-/

set_option autoImplicit false

namespace PathForecast

theorem VertexState.identity_true (s : VertexState) : s.identity true = s := by
  cases s <;> rfl

/-! ## The order of a tally -/

/-- Takes an edge into a tally: what it leads to, and its weight with the forecast there if that is
known. -/
def Tally.take (touched : PartitionSet) (t : Tally Rat)
    (step : VertexState × Option (Rat × Forecast Rat)) : Tally Rat :=
  match step.2 with
  | some (weight, next) => t.add touched weight step.1 next
  | none => t.skip

theorem Table.mapValues_mapValues {κ ν μ ξ : Type} [Ranked κ] (t : Table κ ν) (f : κ → ν → μ)
    (h : κ → μ → ξ) : (t.mapValues f).mapValues h = t.mapValues fun k v => h k (f k v) := by
  simp [mapValues, List.map_map, Function.comp_def]

/-- Edges can be taken in any order. -/
theorem Tally.take_right_comm (touched : PartitionSet) (t : Tally Rat)
    (x y : VertexState × Option (Rat × Forecast Rat)) :
    (t.take touched x).take touched y = (t.take touched y).take touched x := by
  obtain ⟨d, known⟩ := x
  obtain ⟨d', known'⟩ := y
  cases known with
  | none => cases known' <;> rfl
  | some step =>
      cases known' with
      | none => rfl
      | some step' =>
          -- every component adds up what the two edges add to it
          simp only [Tally.take, Tally.add_eq, Table.mapValues_mapValues, add_right_comm]

namespace Graph

theorem mem_partitions {α : Type} {g : Graph α} {p : PartitionId} :
    p ∈ g.partitions ↔ ∃ x ∈ g.vertices, p ∈ x.state.touched := by
  have hfold : ∀ (l : List (Vertex α)) (s : PartitionSet),
      p ∈ l.foldl (fun s x => s ∪ x.state.touched) s ↔ p ∈ s ∨ ∃ x ∈ l, p ∈ x.state.touched := by
    intro l
    induction l with
    | nil => simp
    | cons x l ih =>
        intro s
        rw [List.foldl_cons, ih, PartitionSet.mem_union, List.exists_mem_cons_iff, or_assoc]
  rw [partitions, ← Array.foldl_toList, hfold, or_iff_right (PartitionSet.not_mem_empty p)]
  simp only [Array.mem_toList_iff]

open Classical in
noncomputable def brings (g : Graph Rat) (v : VertexId) (e : Edge Rat) :
    VertexState × Option (Rat × Forecast Rat) :=
  (g.stateOf e.dest,
    if g.ClosedBefore e.dest v then some (e.probability, g.outlook e.dest) else none)

theorem tallyAt_eq_take (g : Graph Rat) (v : VertexId) :
    g.tallyAt v = ((g.edgesFrom v).map (g.brings v)).foldl (Tally.take (g.stateOf v).touched)
      (Tally.zero g.partitions) := by
  rw [tallyAt, List.foldl_map]
  refine List.foldl_ext _ _ _ fun t e _ => ?_
  by_cases hclosed : g.ClosedBefore e.dest v
  · rw [if_pos hclosed, brings, if_pos hclosed]
    rfl
  · rw [if_neg hclosed, brings, if_neg hclosed]
    rfl

/-- What a graph that has recorded passages knows of them after its recompute. -/
structure Recounted (r : Graph Rat) (J : List Passage) : Prop where
  coherent : r.Coherent
  summary : r.Summary J
  recomputed : ∃ g : Graph Rat, g.Arranged ∧ g.recompute = .ok r
  /-- The state of a vertex is its identity. -/
  past : r.settings.usePastPartitions = true

namespace Recounted

variable {r k : Graph Rat} {J : List Passage}

section

variable (hr : r.Recounted J)

include hr

theorem place?_eq (v : VertexId) : r.place? v = r.state? v := by
  rw [place?, hr.past, funext VertexState.identity_true]
  exact Option.map_id_fun' ▸ rfl

theorem spot_eq (v : VertexId) : r.spot v = r.stateOf v := by
  rw [spot, hr.place?_eq, stateOf]

theorem single {v w : VertexId} {s : VertexState} (hv : r.state? v = some s)
    (hw : r.state? w = some s) : v = w :=
  hr.coherent.catalogued.single v w s (by rw [hr.place?_eq, hv]) (by rw [hr.place?_eq, hw])

theorem exists_state_iff (s : VertexState) :
    (∃ v, r.state? v = some s) ↔ s ∈ VertexState.markers ++ arrivals J := by
  rw [← hr.summary.mem_places, hr.coherent.mem_places_iff]
  simp only [hr.place?_eq]

theorem joined_iff {v w : VertexId} {s d : VertexState} (hv : r.state? v = some s)
    (hw : r.state? w = some d) : r.Joined v w ↔ (s, d) ∈ crossings J := by
  rw [← hr.summary.mem_links, hr.coherent.mem_links_iff]
  simp only [hr.place?_eq]
  constructor
  · intro h
    exact ⟨v, w, hv, hw, h⟩
  · rintro ⟨v', w', hv', hw', h⟩
    rwa [hr.single hv hv', hr.single hw hw']

theorem state?_of_joined {v w : VertexId} (h : r.Joined v w) :
    r.state? v = some (r.stateOf v) ∧ r.state? w = some (r.stateOf w) := by
  obtain ⟨⟨s, hs⟩, d, hd⟩ := hr.coherent.places_of_joined h
  rw [hr.place?_eq] at hs hd
  rw [stateOf, stateOf, hs, hd]
  exact ⟨rfl, rfl⟩

theorem nodup_states (v : VertexId) : ((r.edgesFrom v).map fun e => r.stateOf e.dest).Nodup := by
  have hnodup := hr.coherent.arranged.nodup_dests v
  rw [show ((r.edgesFrom v).map fun e => r.stateOf e.dest) =
    ((r.edgesFrom v).map (·.dest)).map r.stateOf by rw [List.map_map]; rfl]
  refine hnodup.map_on fun a ha b hb hab => ?_
  have ha' := (hr.state?_of_joined (hr.coherent.arranged.mem_dests_iff.mp ha)).2
  have hb' := (hr.state?_of_joined (hr.coherent.arranged.mem_dests_iff.mp hb)).2
  exact hr.single ha' (hab ▸ hb')

theorem mem_partitions_iff (p : PartitionId) :
    p ∈ r.partitions ↔ ∃ s ∈ VertexState.markers ++ arrivals J, p ∈ s.touched := by
  rw [mem_partitions]
  constructor
  · rintro ⟨x, hx, hp⟩
    refine ⟨x.state, (hr.exists_state_iff _).mp ⟨x.id, ?_⟩, hp⟩
    exact state?_eq (hr.coherent.arranged.vertex?_id hx)
  · rintro ⟨s, hs, hp⟩
    obtain ⟨v, hv⟩ := (hr.exists_state_iff s).mpr hs
    obtain ⟨x, hx, rfl⟩ := Option.map_eq_some_iff.mp hv
    exact ⟨x, Array.mem_of_getElem? hx, hp⟩

end

section Two

variable (hr : r.Recounted J) (hk : k.Recounted J)

include hr hk

theorem partitions_eq : r.partitions = k.partitions :=
  PartitionSet.ext fun p => (hr.mem_partitions_iff p).trans (hk.mem_partitions_iff p).symm

/-- Where one graph has an edge, the other has one between the same states. -/
theorem exists_joined {v a w : VertexId} {s : VertexState} (hjoined : r.Joined v a)
    (hv : r.state? v = some s) (hw : k.state? w = some s) :
    ∃ b, k.Joined w b ∧ k.state? b = r.state? a := by
  have ha := (hr.state?_of_joined hjoined).2
  obtain ⟨b, hb⟩ := (hk.exists_state_iff _).mpr ((hr.exists_state_iff _).mp ⟨_, ha⟩)
  exact ⟨b, (hk.joined_iff hw hb).mpr ((hr.joined_iff hv ha).mp hjoined), hb.trans ha.symm⟩

theorem exists_edge {v w : VertexId} {s : VertexState} (hv : r.state? v = some s)
    (hw : k.state? w = some s) {e : Edge Rat} (he : e ∈ r.edgesFrom v) :
    ∃ f ∈ k.edgesFrom w, k.stateOf f.dest = r.stateOf e.dest := by
  obtain ⟨b, hb, hstate⟩ := hr.exists_joined hk (hr.coherent.arranged.joined_of_mem he) hv hw
  obtain ⟨f, hf, rfl⟩ := List.mem_map.mp (hk.coherent.arranged.mem_dests_iff.mpr hb)
  exact ⟨f, hf, by rw [stateOf, stateOf, hstate]⟩

/-- A walk of one graph goes through the same states in the other. -/
theorem exists_walk {v a w : VertexId} {s : VertexState} (hwalk : Relation.TransGen r.Joined v a)
    (hv : r.state? v = some s) (hw : k.state? w = some s) :
    ∃ b, Relation.TransGen k.Joined w b ∧ k.state? b = r.state? a := by
  induction hwalk with
  | single hjoined =>
      obtain ⟨b, hb, hstate⟩ := hr.exists_joined hk hjoined hv hw
      exact ⟨b, .single hb, hstate⟩
  | tail _ hjoined ih =>
      obtain ⟨b, hb, hstate⟩ := ih
      have hat := (hr.state?_of_joined hjoined).1
      obtain ⟨c, hc, hstate'⟩ := hr.exists_joined hk hjoined hat (hstate.trans hat)
      exact ⟨c, hb.tail hc, hstate'⟩

/-- The edges of two vertices with one state are the same up to order, if they lead to the same
forecasts and the same of them are left out. -/
theorem perm_brings {v w : VertexId} {s : VertexState} (hv : r.state? v = some s)
    (hw : k.state? w = some s)
    (hdrops : ∀ a b, r.Joined v a → k.state? b = r.state? a →
      (r.ClosedBefore a v ↔ k.ClosedBefore b w))
    (hnext : ∀ a b, r.Joined v a → r.ClosedBefore a v → k.state? b = r.state? a →
      k.outlook b = r.outlook a) :
    ((r.edgesFrom v).map (r.brings v)).Perm ((k.edgesFrom w).map (k.brings w)) := by
  have hrarr := hr.coherent.arranged
  have hkarr := hk.coherent.arranged
  have hsame : k.stateOf w = r.stateOf v := by rw [stateOf, stateOf, hv, hw]
  have hprobability : ∀ e ∈ r.edgesFrom v, ∀ f ∈ k.edgesFrom w,
      k.stateOf f.dest = r.stateOf e.dest → f.probability = e.probability := by
    intro e he f hf hdest
    obtain ⟨hmem, hsource⟩ := mem_edgesFrom.mp he
    obtain ⟨hmem', hsource'⟩ := mem_edgesFrom.mp hf
    rw [hr.summary.probability e hmem, hk.summary.probability f hmem', hsource, hsource',
      hr.spot_eq, hr.spot_eq, hk.spot_eq, hk.spot_eq, hdest, hsame]
  have hbrings : ∀ e ∈ r.edgesFrom v, ∀ f ∈ k.edgesFrom w,
      k.stateOf f.dest = r.stateOf e.dest → k.brings w f = r.brings v e := by
    intro e he f hf hdest
    have hjoined := hrarr.joined_of_mem he
    have hstate : k.state? f.dest = r.state? e.dest := by
      rw [(hr.state?_of_joined hjoined).2, (hk.state?_of_joined (hkarr.joined_of_mem hf)).2, hdest]
    have hiff := hdrops e.dest f.dest hjoined hstate
    rw [brings, brings, hdest, hprobability e he f hf hdest]
    by_cases hclosed : r.ClosedBefore e.dest v
    · rw [if_pos hclosed, if_pos (hiff.mp hclosed), hnext _ _ hjoined hclosed hstate]
    · rw [if_neg hclosed, if_neg (mt hiff.mpr hclosed)]
  refine (List.perm_ext_iff_of_nodup ?_ ?_).mpr fun row => ?_
  · exact .of_map Prod.fst (by rw [List.map_map]; exact hr.nodup_states v)
  · exact .of_map Prod.fst (by rw [List.map_map]; exact hk.nodup_states w)
  · rw [List.mem_map, List.mem_map]
    constructor
    · rintro ⟨e, he, rfl⟩
      obtain ⟨f, hf, hdest⟩ := hr.exists_edge hk hv hw he
      exact ⟨f, hf, hbrings e he f hf hdest⟩
    · rintro ⟨f, hf, rfl⟩
      obtain ⟨e, he, hdest⟩ := hk.exists_edge hr hw hv hf
      exact ⟨e, he, (hbrings e he f hf hdest.symm).symm⟩

/-- What the kept edges of two vertices with one state lead to decides their forecasts. -/
theorem outlook_step {v w : VertexId} {s : VertexState} (hv : r.state? v = some s)
    (hw : k.state? w = some s)
    (hdrops : ∀ a b, r.Joined v a → k.state? b = r.state? a →
      (r.ClosedBefore a v ↔ k.ClosedBefore b w))
    (hnext : ∀ a b, r.Joined v a → r.ClosedBefore a v → k.state? b = r.state? a →
      k.outlook b = r.outlook a) : k.outlook w = r.outlook v := by
  obtain ⟨x, hx, rfl⟩ := Option.map_eq_some_iff.mp hv
  obtain ⟨y, hy, hstate⟩ := Option.map_eq_some_iff.mp hw
  obtain ⟨g, hg, hrecompute⟩ := hr.recomputed
  obtain ⟨g', hg', hrecompute'⟩ := hk.recomputed
  have hperm := hr.perm_brings hk hv hw hdrops hnext
  rw [outlook_eq hx, outlook_eq hy, forecast_recompute hg hrecompute hx,
    forecast_recompute hg' hrecompute' hy, hstate, hr.partitions_eq hk, tallyAt_eq_take,
    tallyAt_eq_take, stateOf_eq hx, stateOf_eq hy, hstate, hr.partitions_eq hk,
    hperm.foldl_eq' fun a _ b _ t => Tally.take_right_comm _ t a b]

/-- Graphs that leave out the same edges ahead of a vertex forecast the same there. -/
theorem outlook_eq_of_drops {v : VertexId} (hdrops : ∀ u u' a b, r.Reaches v u → r.Joined u a →
      k.state? u' = r.state? u → k.state? b = r.state? a →
      (r.ClosedBefore a u ↔ k.ClosedBefore b u')) :
    ∀ {w : VertexId} {s : VertexState}, r.state? v = some s → k.state? w = some s →
      k.outlook w = r.outlook v := by
  -- along the order in which the traversal of the first graph has closed the vertices
  induction v using hr.coherent.arranged.wellFounded_closedBefore.induction with
  | _ v ih =>
      intro w s hv hw
      have hsame := hw.trans hv.symm
      refine hr.outlook_step hk hv hw (fun a b hjoined => hdrops v w a b .refl hjoined hsame)
        fun a b hjoined hclosed hb => ?_
      have ha := (hr.state?_of_joined hjoined).2
      refine ih a hclosed (fun u u' c d hreach => ?_) ha (hb.trans ha)
      exact hdrops u u' c d (hreach.head hjoined)

/-- A vertex that is on no cycle of one graph has all of its edges taken in both. -/
theorem closedBefore_of_no_cycle {v a w b : VertexId} {s : VertexState}
    (hcycle : ¬Relation.TransGen r.Joined v v) (hjoined : r.Joined v a)
    (hv : r.state? v = some s) (hw : k.state? w = some s) (hb : k.state? b = r.state? a) :
    r.ClosedBefore a v ∧ k.ClosedBefore b w := by
  have ha := (hr.state?_of_joined hjoined).2
  have hjoined' := (hk.joined_iff hw (hb.trans ha)).mpr ((hr.joined_iff hv ha).mp hjoined)
  refine ⟨(hr.coherent.arranged.closedBefore_or_reaches hjoined).resolve_right fun hback => ?_,
    (hk.coherent.arranged.closedBefore_or_reaches hjoined').resolve_right fun hback => ?_⟩
  · exact hcycle (.head' hjoined hback)
  · obtain ⟨c, hwalk, hc⟩ := hk.exists_walk hr (.head' hjoined' hback) hw hv
    rw [hr.single (hc.trans hw) hv] at hwalk
    exact hcycle hwalk

end Two

end Recounted

theorem recounted_lessons {p : Procedure} {s : ModelSettings Rat}
    (hpast : s.usePastPartitions = true) {ts ts' : List (TransactionTrace × Estimator)}
    (hroom : Roomy (script p true ts)) (hperm : ts'.Perm ts) :
    ((fresh p s).performAll (lessons ts' ++ [Change.recompute])).Recounted (script p true ts) := by
  rw [← hpast] at hroom ⊢
  obtain ⟨hg, hJ⟩ := Shared.recorded_lessons hroom hperm
  obtain ⟨r, hr⟩ := exists_recompute hg.arranged hg.seeded
  refine ⟨?_, ?_, ⟨_, hg.arranged, ?_⟩, ?_⟩
  · rw [performAll_recompute hr]
    exact hg.of_layout (layout_of_recompute hr)
  · rw [performAll_recompute hr]
    exact hJ.summary hg hr
  · rw [performAll_recompute hr]
    exact hr
  · rw [settings_performAll]
    exact hpast

/-- A vertex ahead of which there are no cycles gets the same forecast in whatever order the traces
have arrived. -/
theorem forecast_perm (p : Procedure) (s : ModelSettings Rat) (hpast : s.usePastPartitions = true)
    (ts ts' : List (TransactionTrace × Estimator)) (hperm : ts'.Perm ts)
    (hroom : Roomy (script p true ts)) :
    let r := (fresh p s).performAll (lessons ts ++ [Change.recompute])
    let k := (fresh p s).performAll (lessons ts' ++ [Change.recompute])
    ∀ v w x y, r.vertex? v = some x → k.vertex? w = some y → x.state = y.state →
      (∀ u, r.Reaches v u → ¬Relation.TransGen r.Joined u u) → y.forecast = x.forecast := by
  intro r k v w x y hx hy hstate hcycles
  have hr : r.Recounted (script p true ts) := recounted_lessons hpast hroom (.refl ts)
  have hk : k.Recounted (script p true ts) := recounted_lessons hpast hroom hperm
  rw [← outlook_eq hx, ← outlook_eq hy]
  refine hr.outlook_eq_of_drops hk (fun u u' a b hreach hjoined hu hb => ?_) (state?_eq hx)
    ((state?_eq hy).trans (by rw [hstate]))
  have hat := (hr.state?_of_joined hjoined).1
  obtain ⟨hclosed, hclosed'⟩ :=
    hr.closedBefore_of_no_cycle hk (hcycles u hreach) hjoined hat (hu.trans hat) hb
  exact iff_of_true hclosed hclosed'

def transferGraph (ts : List (TransactionTrace × Estimator)) : Graph Rat :=
  (fresh transfer .standard).performAll (lessons ts ++ [Change.recompute])

open Shared in
/-- Without cycles, half of the transactions abort whichever of the two came first. -/
theorem forecast_perm_opposite :
    ∃ x y, (transferGraph opposite).vertex? ⟨0⟩ = some x ∧
      (transferGraph opposite.reverse).vertex? ⟨0⟩ = some y ∧ y.forecast = x.forecast ∧
        x.forecast.abort = 1 / 2 := by
  have hroom : Roomy (script transfer true opposite) := ⟨by decide +kernel, by decide +kernel⟩
  have hr : (transferGraph opposite).Recounted (script transfer true opposite) :=
    recounted_lessons rfl hroom (.refl opposite)
  have hacyclic : (transferGraph opposite).Acyclic := by
    -- the terminal markers come last
    refine hr.coherent.arranged.acyclic_of_rank
      (fun v => if v = ⟨1⟩ ∨ v = ⟨2⟩ then 9 else v.slot) ?_
    decide +kernel
  have hvertex : ((transferGraph opposite).vertex? ⟨0⟩).any (fun x =>
      decide (x.state = .start) && decide (x.forecast.abort = 1 / 2)) = true := by decide +kernel
  have hvertex' : ((transferGraph opposite.reverse).vertex? ⟨0⟩).any (fun y =>
      decide (y.state = .start)) = true := by decide +kernel
  obtain ⟨x, hx, hall⟩ := (Option.any_eq_true _ _).mp hvertex
  obtain ⟨y, hy, hstate'⟩ := (Option.any_eq_true _ _).mp hvertex'
  simp only [Bool.and_eq_true, decide_eq_true_eq] at hall hstate'
  obtain ⟨hstate, habort⟩ := hall
  exact ⟨x, y, hx, hy, forecast_perm transfer .standard rfl opposite opposite.reverse
    (List.reverse_perm opposite) hroom ⟨0⟩ ⟨0⟩ x y hx hy (hstate.trans hstate'.symm)
    (fun u _ => hacyclic u), habort⟩

/-- Two transactions that run the same statements in two orders after a first one. Their edges close
a cycle, and which of them is left out depends on which transaction came first. -/
def rivals : List (TransactionTrace × Estimator) :=
  [(transferTrace 1 false [12, 10, 11], .recorded), (transferTrace 2 true [12, 11, 10], .recorded)]

/-- The same start marker, after the same transactions in two orders. -/
theorem forecast_depends_on_arrival :
    rivals.reverse.Perm rivals ∧ (admitted transfer rivals).length = rivals.length ∧
      ∃ x y, (transferGraph rivals).vertex? ⟨0⟩ = some x ∧
        (transferGraph rivals.reverse).vertex? ⟨0⟩ = some y ∧ x.state = y.state ∧
          x.forecast.abort = 1 / 4 ∧ y.forecast.abort = 3 / 4 := by
  have hvertex : ((transferGraph rivals).vertex? ⟨0⟩).any (fun x =>
      decide (x.state = .start) && decide (x.forecast.abort = 1 / 4)) = true := by decide +kernel
  have hvertex' : ((transferGraph rivals.reverse).vertex? ⟨0⟩).any (fun y =>
      decide (y.state = .start) && decide (y.forecast.abort = 3 / 4)) = true := by decide +kernel
  obtain ⟨x, hx, hall⟩ := (Option.any_eq_true _ _).mp hvertex
  obtain ⟨y, hy, hall'⟩ := (Option.any_eq_true _ _).mp hvertex'
  simp only [Bool.and_eq_true, decide_eq_true_eq] at hall hall'
  exact ⟨List.reverse_perm rivals, by decide +kernel, x, y, hx, hy, hall.1.trans hall'.1.symm,
    hall.2, hall'.2⟩

end Graph

end PathForecast
