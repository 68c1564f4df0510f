import Mathlib.Tactic
import PathForecast.Proofs.Forecasts
import PathForecast.Proofs.Traversal.Loop

/-!
# The propagation as one postorder pass

Whatever the edges of a graph are, as long as they run between its vertices, the propagation takes
one step for each vertex and each edge and computes the forecast of a vertex when it closes it. An
edge whose destination is still on the stack then (`RunsBack`) is counted and left out of the
forecast. Main statements: `Anchored.computes`, what is known when a forecast is computed and what
is left out; `Anchored.acyclicOn_of_not_runsBack`, the other edges form no cycle; and
`propagation_completes`, a recompute of a seeded graph gives every vertex its forecast.
-/

set_option autoImplicit false

namespace PathForecast

open Traversal

namespace Graph

variable {α : Type} {g : Graph α}

/-! ## Counting edges -/

/-- Every item counts in the share of its slot. -/
theorem sum_countP_filter {β : Type} (slot : β → Nat) (p : β → Bool) (n : Nat) {l : List β}
    (hl : ∀ b ∈ l, slot b < n) :
    ∑ i ∈ Finset.range n, (l.filter fun b => slot b = i).countP p = l.countP p := by
  induction l with
  | nil => simp
  | cons b l ih =>
      obtain ⟨hb, hl⟩ := List.forall_mem_cons.mp hl
      have hcons : ∀ i, ((b :: l).filter fun b => slot b = i).countP p =
          (l.filter fun b => slot b = i).countP p +
            if slot b = i then (if p b = true then 1 else 0) else 0 := by
        intro i
        by_cases hi : slot b = i <;> simp [hi, List.countP_cons]
      simp only [hcons, Finset.sum_add_distrib]
      rw [ih hl, Finset.sum_ite_eq, if_pos (Finset.mem_range.mpr hb), List.countP_cons]

open Classical in
/-- A count over all successors is a count over the edges. -/
theorem Anchored.sum_countP_successorsIn (hg : g.Anchored) (p : Nat → Nat → Prop) :
    ∑ i ∈ Finset.range g.adjacency.size, (successorsIn g.adjacency i).countP (p i) =
      g.edges.toList.countP fun e => p e.source.slot e.dest.slot := by
  have hbound : ∀ e ∈ g.edges.toList, e.source.slot < g.adjacency.size := fun e he =>
    size_adjacency g ▸ (hg.ends_of_mem (Array.mem_toList_iff.mp he)).1
  rw [← sum_countP_filter (·.source.slot) _ g.adjacency.size hbound]
  refine Finset.sum_congr rfl fun i hi => ?_
  rw [successorsIn_adjacency_slot g (size_adjacency g ▸ Finset.mem_range.mp hi), List.countP_map]
  refine List.countP_congr fun e he => ?_
  simp [(mem_edgesAt.mp he).2]

theorem Anchored.budget_adjacency (hg : g.Anchored) :
    budget g.adjacency = g.vertices.size + g.edges.size := by
  classical
  have hlength : ∑ i ∈ Finset.range g.adjacency.size, (successorsIn g.adjacency i).length =
      g.edges.size := by
    simpa using hg.sum_countP_successorsIn fun _ _ => True
  calc budget g.adjacency
      = ∑ i ∈ Finset.range g.adjacency.size, ((successorsIn g.adjacency i).length + 1) :=
        budget_eq_sum _
    _ = g.edges.size + g.adjacency.size := by rw [Finset.sum_add_distrib, hlength]; simp
    _ = g.vertices.size + g.edges.size := by rw [size_adjacency, Nat.add_comm]

/-! ## Edges that run back -/

/-- When the source of the edge is closed, its destination is still on the stack. -/
def RunsBack (g : Graph α) (e : Edge α) : Prop := Back g.adjacency e.source.slot e.dest.slot

/-- One of the edges in question leads from the first slot to the second. -/
def LinkedBy (g : Graph α) (p : Edge α → Prop) (i j : Nat) : Prop :=
  ∃ e ∈ g.edges, p e ∧ e.source.slot = i ∧ e.dest.slot = j

def AcyclicOn (g : Graph α) (p : Edge α → Prop) : Prop :=
  ∀ i, ¬Relation.TransGen (g.LinkedBy p) i i

theorem Anchored.acyclicOn_of_not_runsBack (hg : g.Anchored) :
    g.AcyclicOn fun e => ¬g.RunsBack e := by
  intro i hcycle
  have hforward : g.LinkedBy (fun e => ¬g.RunsBack e) ≤ Forward g.adjacency := by
    rintro i j ⟨e, he, hback, rfl, rfl⟩
    exact ⟨hg.follows_iff.mpr ⟨e, he, rfl, rfl⟩, hback⟩
  exact not_transGen_forward hg.closed_adjacency i (Relation.TransGen.mono hforward i i hcycle)

theorem Anchored.follows_eq (hg : g.Anchored) :
    Follows g.adjacency = g.LinkedBy fun _ => True := by
  funext i j
  simp [LinkedBy, hg.follows_iff]

open Classical in
theorem Anchored.backEdges_eq_countP (hg : g.Anchored) :
    (run g.adjacency).backEdges = g.edges.toList.countP fun e => g.RunsBack e :=
  (backEdges_run hg.closed_adjacency).trans (hg.sum_countP_successorsIn _)

theorem Anchored.backEdges_eq_zero_iff (hg : g.Anchored) :
    (run g.adjacency).backEdges = 0 ↔ g.AcyclicOn fun _ => True := by
  rw [backEdges_run_eq_zero_iff hg.closed_adjacency, hg.follows_eq]
  rfl

/-! ## Forecasts as they are computed -/

variable [Weight α]

/-- The forecast that the propagation finds for a vertex; zero for a handle without a vertex. -/
def foreseen (g : Graph α) (v : VertexId) : Forecast α := (g.forecastAt v).getD .zero

open Classical in
/-- The forecast of a vertex in the slot from the final forecasts of all destinations, except those
that its edges run back to. -/
noncomputable def forecastWithoutBack (g : Graph α) (i : Nat) (x : Vertex α) : Forecast α :=
  if x.state.kind.isTerminal then .ofTerminal g.partitions x.state.kind
  else
    ((g.edgesAt i).foldl
      (fun t e =>
        if g.RunsBack e then t.skip
        else t.add x.state.touched e.probability (g.stateOf e.dest) (g.foreseen e.dest))
      (Tally.zero g.partitions)).forecast x.state.touched

/-- What holds when a traversal computes the forecast of the vertex in a slot. -/
structure Computes (g : Graph α) (t : Traversal) (i : Nat) (x : Vertex α) : Prop where
  /-- The forecasts that are known are those of the closed vertices. They are final. -/
  known : ∀ j, (g.knownAfter t.order)[j]?.join =
    if j ∈ t.order then g.forecasts[j]?.join else none
  /-- The new forecast is computed from those that are known and is final itself. -/
  computed : g.forecasts[i]? =
    some (some (g.forecastOf g.partitions (g.knownAfter t.order) x (g.outbound[i]?.getD [])))
  /-- An outbound edge leads to a vertex whose forecast is known if it does not run back, and to one
  on the stack if it does. -/
  ends : ∀ e ∈ g.edgesAt i,
    (¬g.RunsBack e ∧ e.dest.slot ∈ t.order ∧ e.dest.slot ∉ t.path) ∨
      (g.RunsBack e ∧ e.dest.slot ∉ t.order ∧ e.dest.slot ∈ t.path)
  /-- The edges that run back are left out, and no others. -/
  skips : g.forecasts[i]? = some (some (g.forecastWithoutBack i x))

namespace Anchored

variable (hg : g.Anchored) {t : Traversal} {i : Nat} {x : Vertex α}
  {rest : List (Nat × List Nat)}

include hg

theorem knownAfter_earlier {later order : List Nat} (hsplit : g.closingOrder = later ++ order)
    (j : Nat) :
    (g.knownAfter order)[j]?.join = if j ∈ order then g.forecasts[j]?.join else none := by
  have hnodup : (later ++ order).Nodup :=
    hsplit ▸ hg.perm_closingOrder.nodup_iff.mpr List.nodup_range
  have hrange : ∀ slot ∈ later ++ order, slot < g.vertices.size := fun slot hslot =>
    List.mem_range.mp (hg.perm_closingOrder.mem_iff.mp (hsplit ▸ hslot))
  obtain ⟨-, -, hdisjoint⟩ := List.nodup_append.mp hnodup
  split
  · next hj =>
      rw [forecasts_eq, hsplit, g.knownAfter_append order
        (fun slot hslot => hrange slot (List.mem_append_left _ hslot))
        fun hmem => hdisjoint j hmem j hj rfl]
  · next hj =>
      exact g.knownAfter_eq_none (fun slot hslot => hrange slot (List.mem_append_right _ hslot)) hj

theorem known_at (ht : Reached g.adjacency t) (hstack : t.stack = (i, []) :: rest) (j : Nat) :
    (g.knownAfter t.order)[j]?.join = if j ∈ t.order then g.forecasts[j]?.join else none := by
  obtain ⟨later, hsplit⟩ := ht.order_run_eq hg.closed_adjacency hstack
  exact hg.knownAfter_earlier (hsplit.trans (List.append_cons _ _ _)) j

theorem computed_at (ht : Reached g.adjacency t) (hstack : t.stack = (i, []) :: rest)
    (hx : g.vertices[i]? = some x) :
    g.forecasts[i]? = some (some
      (g.forecastOf g.partitions (g.knownAfter t.order) x (g.outbound[i]?.getD []))) := by
  obtain ⟨later, hsplit⟩ := ht.order_run_eq hg.closed_adjacency hstack
  have hfinal := hg.knownAfter_earlier hsplit i
  rw [if_pos List.mem_cons_self, knownAfter_cons hx, if_pos rfl] at hfinal
  exact Option.join_eq_some_iff.mp hfinal.symm

omit [Weight α] in
theorem ends_at (ht : Reached g.adjacency t) (hstack : t.stack = (i, []) :: rest) {e : Edge α}
    (he : e ∈ g.edgesAt i) :
    (¬g.RunsBack e ∧ e.dest.slot ∈ t.order ∧ e.dest.slot ∉ t.path) ∨
      (g.RunsBack e ∧ e.dest.slot ∉ t.order ∧ e.dest.slot ∈ t.path) := by
  obtain ⟨hmem, hsource⟩ := mem_edgesAt.mp he
  have hfollows : Follows g.adjacency i e.dest.slot :=
    hg.follows_iff.mpr ⟨e, hmem, hsource, rfl⟩
  have horder := ht.mem_order_iff hg.closed_adjacency hstack hfollows
  have hback : g.RunsBack e ↔ e.dest.slot ∈ t.path := by
    rw [RunsBack, hsource]
    exact ht.back_iff hg.closed_adjacency hstack
  by_cases hpath : e.dest.slot ∈ t.path
  · exact .inr ⟨hback.mpr hpath, fun h => horder.mp h hpath, hpath⟩
  · exact .inl ⟨fun h => hpath (hback.mp h), horder.mpr hpath, hpath⟩

/-- Every forecast is found. -/
theorem exists_forecast (hi : i < g.vertices.size) : ∃ f, g.forecasts[i]? = some (some f) := by
  obtain ⟨t, rest, ht, hstack⟩ := exists_closing_run hg.closed_adjacency (size_adjacency g ▸ hi)
  exact ⟨_, hg.computed_at ht hstack (Array.getElem?_eq_getElem hi)⟩

/-- An edge that does not run back finds its destination with its final forecast. -/
theorem known_dest (ht : Reached g.adjacency t) (hstack : t.stack = (i, []) :: rest) {e : Edge α}
    (he : e ∈ g.edgesAt i) (hback : ¬g.RunsBack e) :
    (g.knownAfter t.order)[e.dest.slot]?.join = some (g.foreseen e.dest) := by
  obtain ⟨-, horder, -⟩ := (hg.ends_at ht hstack he).resolve_right fun h => hback h.1
  obtain ⟨f, hf⟩ := hg.exists_forecast (hg.ends_of_mem (mem_edgesAt.mp he).1).2
  rw [hg.known_at ht hstack, if_pos horder, foreseen, forecastAt, hf]
  rfl

/-- An edge that runs back finds no forecast. -/
theorem known_dest_of_runsBack (ht : Reached g.adjacency t) (hstack : t.stack = (i, []) :: rest)
    {e : Edge α} (he : e ∈ g.edgesAt i) (hback : g.RunsBack e) :
    (g.knownAfter t.order)[e.dest.slot]?.join = none := by
  obtain ⟨-, horder, -⟩ := (hg.ends_at ht hstack he).resolve_left fun h => h.1 hback
  rw [hg.known_at ht hstack, if_neg horder]

theorem forecastOf_eq (ht : Reached g.adjacency t) (hstack : t.stack = (i, []) :: rest)
    (hi : i < g.vertices.size) (x : Vertex α) :
    g.forecastOf g.partitions (g.knownAfter t.order) x (g.outbound[i]?.getD []) =
      g.forecastWithoutBack i x := by
  rw [getElem?_outbound_slot g hi, Option.getD_some, forecastOf, forecastWithoutBack]
  split
  · rfl
  · -- both sides go through the same edges and are compared edge by edge
    dsimp only
    rw [List.foldl_map]
    refine congrArg (Tally.forecast · x.state.touched) (List.foldl_ext _ _ _ fun tally e he => ?_)
    by_cases hback : g.RunsBack e
    · simp only [hg.known_dest_of_runsBack ht hstack he hback, if_pos hback]
    · obtain ⟨y, hy⟩ := Option.isSome_iff_exists.mp
        ((g.isSome_vertex?_iff e.dest).mpr (hg.ends_of_mem (mem_edgesAt.mp he).1).2)
      have hdest : g.vertices[e.dest.slot]? = some y := hy
      simp only [hg.known_dest ht hstack he hback, hdest, if_neg hback, stateOf_eq hy]

theorem computes (ht : Reached g.adjacency t) (hstack : t.stack = (i, []) :: rest)
    (hx : g.vertices[i]? = some x) : g.Computes t i x where
  known := hg.known_at ht hstack
  computed := hg.computed_at ht hstack hx
  ends _ he := hg.ends_at ht hstack he
  skips := by
    rw [← hg.forecastOf_eq ht hstack (Array.getElem?_eq_some_iff.mp hx).1]
    exact hg.computed_at ht hstack hx

end Anchored

/-! ## Whole passes -/

open Classical in
/-- What a propagation over a graph does from beginning to end. -/
structure Completes (g : Graph α) : Prop where
  /-- The run is the whole loop: it starts afresh and ends where nothing is left to do. -/
  reached : Reached g.adjacency (run g.adjacency)
  done : ∀ t, ¬Next g.adjacency (run g.adjacency) t
  /-- It takes a step for each vertex and for each edge. -/
  steps : (run g.adjacency).steps = g.vertices.size + g.edges.size
  /-- No step looks up a vertex that is missing. -/
  present : ∀ {t i d ds rest}, Reached g.adjacency t → t.stack = (i, d :: ds) :: rest →
    d < g.vertices.size
  /-- Every vertex is closed once, and its forecast is computed then. -/
  once : ∀ i < g.vertices.size, ∃! t, Reached g.adjacency t ∧ ∃ rest, t.stack = (i, []) :: rest
  order : g.closingOrder.Perm (List.range g.vertices.size)
  computes : ∀ {t i rest x}, Reached g.adjacency t → t.stack = (i, []) :: rest →
    g.vertices[i]? = some x → g.Computes t i x
  /-- The step that looks at an edge counts it if it runs back. -/
  counts : ∀ {t i d ds rest}, Reached g.adjacency t → t.stack = (i, d :: ds) :: rest →
    (t.step g.adjacency).backEdges = t.backEdges + if Back g.adjacency i d then 1 else 0
  counted : (run g.adjacency).backEdges = g.edges.toList.countP fun e => g.RunsBack e
  acyclic : g.AcyclicOn fun e => ¬g.RunsBack e
  zero : (run g.adjacency).backEdges = 0 ↔ g.AcyclicOn fun _ => True

theorem Anchored.completes (hg : g.Anchored) : g.Completes where
  reached := reached_run hg.closed_adjacency
  done _ := not_next_run hg.closed_adjacency
  steps := (steps_run hg.closed_adjacency).trans hg.budget_adjacency
  present := by
    intro t i d ds rest ht hstack
    obtain ⟨seen, hseen, -⟩ :=
      (ht.sound hg.closed_adjacency).looked (i, d :: ds) (by rw [hstack]; exact List.mem_cons_self)
    have hfollows : Follows g.adjacency i d := by
      rw [Follows, hseen]
      exact List.mem_append_right seen List.mem_cons_self
    exact size_adjacency g ▸ hg.closed_adjacency i d hfollows
  once := by
    intro i hi
    obtain ⟨t, rest, ht, hstack⟩ := exists_closing_run hg.closed_adjacency (size_adjacency g ▸ hi)
    refine ⟨t, ⟨ht, rest, hstack⟩, ?_⟩
    rintro u ⟨hu, rest', hstack'⟩
    exact hu.eq_of_closing hg.closed_adjacency ht hstack' hstack
  order := hg.perm_closingOrder
  computes := hg.computes
  counts ht hstack := ht.backEdges_step hg.closed_adjacency hstack
  counted := hg.backEdges_eq_countP
  acyclic := hg.acyclicOn_of_not_runsBack
  zero := hg.backEdges_eq_zero_iff

/-- A recompute stores in every vertex the forecast that the propagation finds for it. -/
theorem forecast_of_recompute (hg : g.Anchored) {r : Graph α} (h : g.recompute = .ok r) {i : Nat}
    {x : Vertex α} (hx : r.vertices[i]? = some x) :
    g.closeWindow.deriveProbabilities.forecasts[i]? = some (some x.forecast) := by
  have hk : g.closeWindow.deriveProbabilities.Anchored := hg.of_layout (by simp)
  obtain ⟨-, -, rfl⟩ := (recompute_eq_ok_iff g r).mp h
  have hx : g.closeWindow.deriveProbabilities.propagate.vertices[i]? = some x := hx
  rw [propagate, Array.getElem?_mapIdx] at hx
  obtain ⟨y, hy, rfl⟩ := Option.map_eq_some_iff.mp hx
  obtain ⟨f, hf⟩ := hk.exists_forecast (Array.getElem?_eq_some_iff.mp hy).1
  simp [hf, Vertex.setForecast]

/-- The propagation over a graph whose edges run between its vertices, loops and cycles included,
looks at every edge and computes every forecast once. So every reachable graph that is seeded can
be recomputed, and then each of its vertices has its forecast. -/
theorem propagation_completes :
    (∀ g : Graph α, g.Anchored → g.missingEnd? = none ∧ g.Completes) ∧
      ∀ (p : Procedure) (s : ModelSettings α) (g : Graph α), Reachable p s g → g.seeded = true →
        ∃ r, g.recompute = .ok r ∧ r.vertices.size = g.vertices.size ∧
          g.closeWindow.deriveProbabilities.Completes ∧
          ∀ (i : Nat) (x : Vertex α), r.vertices[i]? = some x →
            g.closeWindow.deriveProbabilities.forecasts[i]? = some (some x.forecast) := by
  refine ⟨fun g hg => ⟨hg.missingEnd?_eq_none, hg.completes⟩, fun p s g hreach hseeded => ?_⟩
  have hg := anchored_of_reachable hreach
  obtain ⟨r, hr⟩ := hg.exists_recompute hseeded
  exact ⟨r, hr, size_vertices_of_layout (layout_of_recompute hr),
    (hg.of_layout (by simp)).completes, fun _ _ hx => forecast_of_recompute hg hr hx⟩

def tangled : Graph Rat :=
  (Graph.empty ⟨⟨1⟩, "transfer", []⟩ .standard).performAll
    [.seed, .addEdge ⟨0⟩ ⟨0⟩, .addEdge ⟨0⟩ ⟨1⟩, .addEdge ⟨1⟩ ⟨2⟩, .addEdge ⟨2⟩ ⟨1⟩]

theorem propagation_completes_tangled :
    tangled.missingEnd? = none ∧ (run tangled.adjacency).steps = 3 + 4 ∧
      (run tangled.adjacency).backEdges = 2 ∧ ¬tangled.AcyclicOn (fun _ => True) ∧
      ∃ r, tangled.recompute = .ok r ∧ r.vertices.size = 3 := by
  have hreach : Reachable ⟨⟨1⟩, "transfer", []⟩ .standard tangled := Reachable.empty.performAll _
  have hv : tangled.vertices.size = 3 := by decide +kernel
  have he : tangled.edges.size = 4 := by decide +kernel
  have hback : (run tangled.adjacency).backEdges = 2 := by decide +kernel
  obtain ⟨hpass, hrecompute⟩ := propagation_completes (α := Rat)
  obtain ⟨hends, hcompletes⟩ := hpass tangled (anchored_of_reachable hreach)
  obtain ⟨r, hr, hsize, -, -⟩ := hrecompute _ _ tangled hreach (by decide +kernel)
  refine ⟨hends, hv ▸ he ▸ hcompletes.steps, hback, fun hacyclic => ?_, r, hr, hsize.trans hv⟩
  rw [hcompletes.zero.mpr hacyclic] at hback
  cases hback

end Graph

end PathForecast
