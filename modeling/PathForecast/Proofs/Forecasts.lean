import Mathlib
import PathForecast.Proofs.Accounting
import PathForecast.Proofs.Propagation

/-!
# Forecasts of a recomputed graph

A recompute stores in every vertex the forecast that the propagation finds. Written over the
recomputed graph itself, the forecast of a vertex is a tally over its outbound edges (`tallyAt`):
an edge adds what its destination forecasts if the destination was closed before the vertex, and is
left out if not. Main statements: `forecast_recompute`, and `tallyAt_sum`, read over the rationals a
tally is a sum over the included edges.
-/

set_option autoImplicit false

namespace PathForecast

/-! ## What an edge adds to a tally -/

/-- What an edge adds to the probability that no new partition is needed. -/
def noNewGain (touched : PartitionSet) (weight : Rat) (dest : VertexState)
    (next : Forecast Rat) : Rat :=
  if dest.kind.isTerminal then weight
  else if dest.partitions.isSubset touched then weight * next.noNewPartitions
  else 0

def doneGain (weight : Rat) (dest : VertexState) (next : Forecast Rat) (p : PartitionId) : Rat :=
  if dest.kind.isTerminal then weight
  else if p ∈ dest.partitions then 0
  else weight * next.doneWith p

theorem Tally.add_eq (touched : PartitionSet) (t : Tally Rat) (weight : Rat) (dest : VertexState)
    (next : Forecast Rat) :
    t.add touched weight dest next =
      { included := t.included + weight
        skipped := t.skipped
        sum := ⟨t.sum.abort + weight * next.abort,
          t.sum.singlePartition + weight * next.singlePartition,
          t.sum.noNewPartitions + noNewGain touched weight dest next,
          t.sum.done.mapValues fun p d => d + doneGain weight dest next p⟩ } := by
  unfold Tally.add noNewGain doneGain
  by_cases hterminal : dest.kind.isTerminal = true
  · simp only [hterminal, if_true]
  · have hdone : (fun (p : PartitionId) (d : Rat) =>
        if p ∈ dest.partitions then d else d + weight * next.doneWith p) =
        fun p d => d + if p ∈ dest.partitions then 0 else weight * next.doneWith p := by
      funext p d
      split
      · rw [add_zero]
      · rfl
    simp only [hterminal, Bool.false_eq_true, if_false, hdone]
    by_cases hsubset : dest.partitions.isSubset touched = true
    · simp only [hsubset, if_true]
    · simp only [hsubset, Bool.false_eq_true, if_false, add_zero]

namespace Graph

variable {α : Type}

/-- What a vertex stands for; a handle without a vertex counts as a start marker. -/
def stateOf (g : Graph α) (v : VertexId) : VertexState := (g.state? v).getD .start

theorem stateOf_eq {g : Graph α} {v : VertexId} {x : Vertex α} (hx : g.vertex? v = some x) :
    g.stateOf v = x.state := by
  rw [stateOf, state?_eq hx, Option.getD_some]

variable [Weight α]

def outlook (g : Graph α) (v : VertexId) : Forecast α :=
  ((g.vertex? v).map (·.forecast)).getD .zero

theorem outlook_eq {g : Graph α} {v : VertexId} {x : Vertex α} (hx : g.vertex? v = some x) :
    g.outlook v = x.forecast := by
  rw [outlook, hx]
  rfl

open Classical in
noncomputable def tallyAt (g : Graph α) (v : VertexId) : Tally α :=
  (g.edgesFrom v).foldl
    (fun t e =>
      if g.ClosedBefore e.dest v then
        t.add (g.stateOf v).touched e.probability (g.stateOf e.dest) (g.outlook e.dest)
      else t.skip)
    (Tally.zero g.partitions)

/-! ## What a recompute stores -/

variable {g r : Graph α}

/-- The graph whose forecasts a recompute stores: windows closed, edge probabilities derived. -/
theorem recompute_parts (h : g.recompute = .ok r) :
    r.edges = g.closeWindow.deriveProbabilities.edges ∧
      (∀ v, r.vertex? v = (g.closeWindow.deriveProbabilities.vertex? v).map fun x =>
        match g.closeWindow.deriveProbabilities.forecastAt v with
        | some f => x.setForecast f
        | none => x) ∧
      r.settings = g.settings := by
  obtain ⟨_, _, rfl⟩ := (recompute_eq_ok_iff g r).mp h
  refine ⟨rfl, fun v => ?_, rfl⟩
  show (g.closeWindow.deriveProbabilities.propagate.vertices)[v.slot]? = _
  rw [propagate, Array.getElem?_mapIdx]
  rfl

omit [Weight α] in
theorem partitions_congr {g k : Graph α} (h : k.layout = g.layout) :
    k.partitions = g.partitions := by
  have hstates : ∀ l : Graph α, l.partitions =
      (l.layout.vertices.map (·.state)).foldl (fun s v => s ∪ v.touched) ∅ := by
    intro l
    rw [layout, partitions, Array.map_map, Array.foldl_map]
    rfl
  rw [hstates, hstates, h]

omit [Weight α] in
theorem closingOrder_congr {g k : Graph α} (hedges : k.edges = g.edges)
    (hvertices : k.vertices.size = g.vertices.size) : k.closingOrder = g.closingOrder := by
  rw [closingOrder, adjacency, outbound, hedges, hvertices]
  rfl

/-- Every vertex of a recomputed graph stores its propagated forecast. -/
theorem forecastAt_of_recompute (hg : g.Arranged) (h : g.recompute = .ok r) {v : VertexId}
    {x : Vertex α} (hx : r.vertex? v = some x) :
    ∃ x₀, g.closeWindow.deriveProbabilities.vertex? v = some x₀ ∧ x₀.state = x.state ∧
      g.closeWindow.deriveProbabilities.forecastAt v = some x.forecast := by
  have hk : g.closeWindow.deriveProbabilities.Arranged := hg.of_layout (by simp)
  obtain ⟨-, hvertex, -⟩ := recompute_parts h
  rw [hvertex v] at hx
  obtain ⟨x₀, hx₀, rfl⟩ := Option.map_eq_some_iff.mp hx
  obtain ⟨known, hforecast, -⟩ := hk.forecastAt_eq hx₀
  exact ⟨x₀, hx₀, by rw [hforecast]; rfl, by rw [hforecast]; rfl⟩

/-- The forecast of a running state is the tally over its outbound edges, that of an end is
fixed. -/
theorem forecast_recompute (hg : g.Arranged) (h : g.recompute = .ok r) {v : VertexId}
    {x : Vertex α} (hx : r.vertex? v = some x) :
    x.forecast =
      if x.state.kind.isTerminal then .ofTerminal r.partitions x.state.kind
      else (r.tallyAt v).forecast x.state.touched := by
  have hlayout : r.layout = g.closeWindow.deriveProbabilities.layout := by
    simp [layout_of_recompute h]
  have hk : g.closeWindow.deriveProbabilities.Arranged := hg.of_layout (by simp)
  obtain ⟨hedges, -, -⟩ := recompute_parts h
  have horder := closingOrder_congr hedges (size_vertices_of_layout hlayout)
  obtain ⟨x₀, hx₀, hstate, hat⟩ := forecastAt_of_recompute hg h hx
  obtain ⟨known, hforecast, hbefore, hnone⟩ := hk.forecastAt_eq hx₀
  rw [hat, Option.some.injEq] at hforecast
  rw [hforecast, forecastOf, hstate, partitions_congr hlayout, tallyAt, stateOf_eq hx,
    partitions_congr hlayout, edgesFrom, edgesFrom, hedges]
  split
  · rfl
  · dsimp only
    -- both sides go through the same edges and are compared edge by edge
    rw [List.foldl_map]
    refine congrArg (Tally.forecast · x.state.touched) (List.foldl_ext _ _ _ fun t e he => ?_)
    obtain ⟨j, hj⟩ := List.mem_iff_getElem?.mp (List.mem_of_mem_filter he)
    rw [Array.getElem?_toList] at hj
    obtain ⟨y₀, hy₀⟩ := Option.isSome_iff_exists.mp
      ((isSome_vertex?_iff _ _).mpr (hk.ends j e hj).2)
    -- the destination is a vertex of the recomputed graph too
    obtain ⟨y, hy, hyframe⟩ := vertex_of_layout hlayout.symm hy₀
    obtain ⟨y₁, hy₁, hystate, hyat⟩ := forecastAt_of_recompute hg h hy
    rw [hy₀, Option.some.injEq] at hy₁
    subst hy₁
    by_cases hclosed : r.ClosedBefore e.dest v
    · have hknown := hbefore e.dest (by simpa only [ClosedBefore, horder] using hclosed)
      have hdest : g.closeWindow.deriveProbabilities.vertices[e.dest.slot]? = some y₀ := hy₀
      rw [if_pos hclosed, outlook_eq hy, stateOf_eq hy, ← hystate]
      simp only [hknown, hyat, hdest]
    · have hknown := hnone e.dest (by simpa only [ClosedBefore, horder] using hclosed)
      rw [if_neg hclosed, hknown]

/-! ## Tallies as sums -/

/-- What every step adds to a quantity, all steps together add. -/
theorem foldl_sum {τ β M : Type} [AddMonoid M] {R : τ → M → Prop} {step : τ → β → τ}
    {gain : β → M}
    (hstep : ∀ t b a, R t a → R (step t b) (a + gain b)) (l : List β) :
    ∀ {t : τ} {a : M}, R t a → R (l.foldl step t) (a + (l.map gain).sum) := by
  induction l with
  | nil =>
      intro t a h
      rw [List.map_nil, List.sum_nil, add_zero]
      exact h
  | cons b l ih =>
      intro t a h
      rw [List.foldl_cons, List.map_cons, List.sum_cons, ← add_assoc]
      exact ih (hstep t b a h)

section Sums

variable (g : Graph Rat) (v : VertexId)

open Classical in
/-- The sum over the outbound edges of a vertex that its tally includes. -/
noncomputable def includedSum (gain : Edge Rat → Rat) : Rat :=
  ((g.edgesFrom v).map fun e => if g.ClosedBefore e.dest v then gain e else 0).sum

/-- A quantity that starts at zero and to which every included edge adds its gain. -/
theorem tallyAt_sum {R : Tally Rat → Rat → Prop} {gain : Edge Rat → Rat}
    (hzero : R (Tally.zero g.partitions) 0) (hskip : ∀ t a, R t a → R t.skip a)
    (hadd : ∀ t a e, R t a → R (t.add (g.stateOf v).touched e.probability (g.stateOf e.dest)
      (g.outlook e.dest)) (a + gain e)) :
    R (g.tallyAt v) (g.includedSum v gain) := by
  rw [← zero_add (g.includedSum v gain)]
  refine foldl_sum (fun t e a h => ?_) (g.edgesFrom v) hzero
  by_cases hclosed : g.ClosedBefore e.dest v
  · rw [if_pos hclosed, if_pos hclosed]
    exact hadd t a e h
  · rw [if_neg hclosed, if_neg hclosed, add_zero]
    exact hskip t a h

theorem included_tallyAt : (g.tallyAt v).included = g.includedSum v (·.probability) := by
  refine g.tallyAt_sum (R := fun t a => t.included = a) v rfl (fun _ _ h => h) fun t a e h => ?_
  rw [← h]
  rfl

theorem abort_tallyAt :
    (g.tallyAt v).sum.abort =
      g.includedSum v fun e => e.probability * (g.outlook e.dest).abort := by
  refine g.tallyAt_sum (R := fun t a => t.sum.abort = a) v rfl (fun _ _ h => h) fun t a e h => ?_
  rw [← h, Tally.add_eq]

theorem singlePartition_tallyAt :
    (g.tallyAt v).sum.singlePartition =
      g.includedSum v fun e => e.probability * (g.outlook e.dest).singlePartition := by
  refine g.tallyAt_sum (R := fun t a => t.sum.singlePartition = a) v rfl (fun _ _ h => h)
    fun t a e h => ?_
  rw [← h, Tally.add_eq]

theorem noNewPartitions_tallyAt :
    (g.tallyAt v).sum.noNewPartitions = g.includedSum v fun e =>
      if (g.stateOf e.dest).kind.isTerminal then e.probability
      else if (g.stateOf e.dest).partitions.isSubset (g.stateOf v).touched then
        e.probability * (g.outlook e.dest).noNewPartitions
      else 0 := by
  refine g.tallyAt_sum (R := fun t a => t.sum.noNewPartitions = a) v rfl (fun _ _ h => h)
    fun t a e h => ?_
  rw [← h, Tally.add_eq]
  rfl

theorem done_tallyAt {p : PartitionId} (hp : p ∈ g.partitions) :
    (g.tallyAt v).sum.done.get? p = some (g.includedSum v fun e =>
      if (g.stateOf e.dest).kind.isTerminal then e.probability
      else if p ∈ (g.stateOf e.dest).partitions then 0
      else e.probability * (g.outlook e.dest).doneWith p) := by
  refine g.tallyAt_sum (R := fun t a => t.sum.done.get? p = some a) v ?_ (fun _ _ h => h)
    fun t a e h => ?_
  · -- the tally starts with an entry for every partition of the graph
    exact (Table.get?_ofKeys _ g.partitions.ascending _ p).trans (if_pos hp)
  · rw [Tally.add_eq]
    refine (Table.get?_mapValues _ _ p).trans ?_
    rw [h]
    rfl

variable {g : Graph Rat} {v : VertexId} {gain : Edge Rat → Rat}
  (hgain : ∀ e ∈ g.edgesFrom v, g.ClosedBefore e.dest v → 0 ≤ gain e)

include hgain

theorem includedSum_nonneg : 0 ≤ g.includedSum v gain := by
  refine List.sum_nonneg fun a ha => ?_
  obtain ⟨e, he, rfl⟩ := List.mem_map.mp ha
  split
  · next hclosed => exact hgain e he hclosed
  · exact le_rfl

theorem le_includedSum {e : Edge Rat} (he : e ∈ g.edgesFrom v)
    (hclosed : g.ClosedBefore e.dest v) : gain e ≤ g.includedSum v gain := by
  refine List.single_le_sum (fun a ha => ?_) _ (List.mem_map.mpr ⟨e, he, if_pos hclosed⟩)
  obtain ⟨f, hf, rfl⟩ := List.mem_map.mp ha
  split
  · next hf' => exact hgain f hf hf'
  · exact le_rfl

end Sums

end Graph

end PathForecast
