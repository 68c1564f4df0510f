import PathForecast.Proofs.Growth

/-!
# Successor lists

A graph answers which vertices follow a vertex from a list that it remembers or else from the
table of the vertex. Both say what the edges say (`Answering`): an edge enters the table of its
source and makes the graph forget the list of its source, and nothing else changes a table or the
edges. Main statements: `Growth.answering`, every change keeps the agreement, and
`successors_of_reachable`, the answer lists the destinations of the edges in ascending order.
-/

set_option autoImplicit false

namespace PathForecast

namespace Graph

variable {α : Type} {g k : Graph α}

/-! ## Edges from a vertex to another -/

def HasEdge (g : Graph α) (v d : VertexId) : Prop := ∃ e ∈ g.edges, e.source = v ∧ e.dest = d

theorem HasEdge.of_layout (h : k.layout = g.layout) {v d : VertexId} (hk : k.HasEdge v d) :
    g.HasEdge v d := by
  obtain ⟨f, hf, rfl, rfl⟩ := hk
  obtain ⟨j, hj⟩ := Array.mem_iff_getElem?.mp hf
  obtain ⟨e, he, hframe⟩ := edge_of_layout h hj
  obtain ⟨-, -, hsource, hdest⟩ := (e.frame_eq_iff f).mp hframe
  exact ⟨e, Array.mem_of_getElem? he, hsource, hdest⟩

theorem hasEdge_of_layout (h : k.layout = g.layout) (v d : VertexId) :
    k.HasEdge v d ↔ g.HasEdge v d :=
  ⟨.of_layout h, .of_layout h.symm⟩

theorem Anchored.not_hasEdge (hg : g.Anchored) {v : VertexId} (hv : g.vertices.size ≤ v.slot)
    (d : VertexId) : ¬g.HasEdge v d := by
  rintro ⟨e, he, rfl, -⟩
  exact absurd (hg.ends_of_mem he).1 (not_lt.mpr hv)

variable [Weight α]

theorem hasEdge_pushEdge (g : Graph α) (source dest v d : VertexId) :
    (g.pushEdge source dest).HasEdge v d ↔ (v = source ∧ d = dest) ∨ g.HasEdge v d := by
  have hedges : (g.pushEdge source dest).edges =
      g.edges.push (.fresh g.nextEdge ⟨g.nextElement⟩ source dest) := rfl
  simp only [HasEdge, hedges, Array.mem_push]
  constructor
  · rintro ⟨e, he | rfl, rfl, rfl⟩
    · exact .inr ⟨e, he, rfl, rfl⟩
    · exact .inl ⟨rfl, rfl⟩
  · rintro (⟨rfl, rfl⟩ | ⟨e, he, rfl, rfl⟩)
    · exact ⟨_, .inr rfl, rfl, rfl⟩
    · exact ⟨e, .inl he, rfl, rfl⟩

/-! ## Agreement -/

/-- Tables and remembered lists say what the edges say. -/
structure Answering (g : Graph α) : Prop where
  ends : g.Anchored
  /-- The table of a vertex has the destinations of its edges. -/
  tabled : ∀ v x, g.vertex? v = some x → ∀ d, d ∈ x.successors.keys ↔ g.HasEdge v d
  /-- A remembered list is that of the table of a vertex. -/
  remembered : ∀ v vs, g.successorMemo.get? v = some vs →
    ∃ x, g.vertex? v = some x ∧ vs = x.successors.keys

omit [Weight α] in
theorem answering_empty (p : Procedure) (s : ModelSettings α) :
    (Graph.empty p s).Answering where
  ends := nofun
  tabled v x hx := by simp [Graph.empty, vertex?] at hx
  remembered := nofun

namespace Answering

omit [Weight α] in
theorem of_layout (hg : g.Answering) (h : k.layout = g.layout) : k.Answering where
  ends := hg.ends.of_layout h
  tabled v y hy d := by
    obtain ⟨x, hx, hframe⟩ := vertex_of_layout h hy
    obtain ⟨-, -, -, hsuccessors⟩ := (x.frame_eq_iff y).mp hframe
    rw [hasEdge_of_layout h, ← hsuccessors]
    exact hg.tabled v x hx d
  remembered v vs hvs := by
    have hmemo : k.successorMemo = g.successorMemo := congrArg Layout.successorMemo h
    obtain ⟨x, hx, rfl⟩ := hg.remembered v vs (hmemo ▸ hvs)
    obtain ⟨y, hy, hframe⟩ := vertex_of_layout h.symm hx
    obtain ⟨-, -, -, hsuccessors⟩ := (y.frame_eq_iff x).mp hframe
    exact ⟨y, hy, by rw [hsuccessors]⟩

omit [Weight α] in
theorem remember (hg : g.Answering) (v : VertexId) {x : Vertex α} (hx : g.vertex? v = some x) :
    Answering { g with successorMemo := g.successorMemo.insert v x.successors.keys } where
  ends := hg.ends
  tabled := hg.tabled
  remembered w vs hvs := by
    rw [Table.get?_insert] at hvs
    split at hvs
    · next h =>
        cases hvs
        exact ⟨x, h ▸ hx, rfl⟩
    · exact hg.remembered w vs hvs

/-- A new vertex has no edges, and its table is empty. -/
theorem pushVertex (hg : g.Answering) (state : VertexState) : (g.pushVertex state).Answering where
  ends := hg.ends.of_size_le rfl (by rw [size_pushVertex]; exact Nat.le_succ _)
  tabled v x hx d := by
    rw [vertex?, getElem?_pushVertex] at hx
    split at hx
    · next hv =>
        cases hx
        exact iff_of_false List.not_mem_nil (hg.ends.not_hasEdge hv.ge d)
    · exact hg.tabled v x hx d
  remembered v vs hvs := by
    obtain ⟨x, hx, rfl⟩ := hg.remembered v vs hvs
    exact ⟨x, (vertex?_pushVertex_of_lt _ _ (slot_lt_of_vertex? hx)).trans hx, rfl⟩

omit [Weight α] in
theorem congr (hg : g.Answering) (hv : k.vertices = g.vertices) (he : k.edges = g.edges)
    (hm : k.successorMemo = g.successorMemo) : k.Answering where
  ends := hg.ends.of_size_le he (by rw [hv])
  tabled := by simpa only [vertex?, HasEdge, hv, he] using hg.tabled
  remembered := by simpa only [vertex?, hv, hm] using hg.remembered

theorem seed (hg : g.Answering) (h : g.seeded = false) : g.seed.Answering := by
  rw [seed_of_unseeded h]
  exact (((hg.pushVertex .start).pushVertex .commit).pushVertex .abort).congr rfl rfl rfl

/-- A new edge enters the table of its source, whose list is forgotten. -/
theorem pushEdge (hg : g.Answering) {source dest : VertexId}
    (hs : source.slot < g.vertices.size) (hd : dest.slot < g.vertices.size) :
    (g.pushEdge source dest).Answering where
  ends := hg.ends.pushEdge hs hd
  tabled v y hy d := by
    rw [vertex?_pushEdge] at hy
    rw [hasEdge_pushEdge]
    split at hy
    · next hv =>
        obtain ⟨x, hx, rfl⟩ := Option.map_eq_some_iff.mp hy
        refine (Table.mem_keys_insert x.successors dest d g.nextEdge).trans ?_
        rw [hg.tabled v x hx d]
        simp [hv]
    · next hv =>
        rw [hg.tabled v y hy d]
        simp [Ne.symm hv]
  remembered v vs hvs := by
    have hvs : (g.successorMemo.erase source).get? v = some vs := hvs
    rw [Table.get?_erase] at hvs
    split at hvs
    · cases hvs
    · next hv =>
        obtain ⟨x, hx, rfl⟩ := hg.remembered v vs hvs
        exact ⟨x, by rw [vertex?_pushEdge, if_neg (Ne.symm hv), hx], rfl⟩

end Answering

theorem Growth.answering (h : Growth g k) (hg : g.Answering) : k.Answering := by
  induction h with
  | retain h => exact hg.of_layout h
  | remember v hx => exact hg.remember v hx
  | markers h => exact hg.seed h
  | query key => exact (hg.pushVertex (.query key)).congr rfl rfl rfl
  | edge source dest hs hd _ => exact hg.pushEdge hs hd
  | trans _ _ ih₁ ih₂ => exact ih₂ (ih₁ hg)

theorem answering_of_reachable {p : Procedure} {s : ModelSettings α} (h : Reachable p s g) :
    g.Answering :=
  (growth_of_reachable h).answering (answering_empty p s)

/-! ## Answers -/

omit [Weight α] in
/-- A vertex is answered from its table. The graph remembers the list and changes in nothing
else. -/
theorem Answering.successors_eq (hg : g.Answering) {v : VertexId} {x : Vertex α}
    (hx : g.vertex? v = some x) :
    ∃ k, g.successors v = .ok (k, x.successors.keys) ∧
      { k with successorMemo := g.successorMemo } = g ∧
      ∀ w, k.successorMemo.get? w =
        if w = v then some x.successors.keys else g.successorMemo.get? w := by
  unfold successors
  cases hmemo : g.successorMemo.get? v with
  | some vs =>
      obtain ⟨y, hy, rfl⟩ := hg.remembered v vs hmemo
      obtain rfl : y = x := Option.some.inj (hy.symm.trans hx)
      refine ⟨g, rfl, rfl, fun w => ?_⟩
      split
      · next hw => rw [hw, hmemo]
      · rfl
  | none =>
      refine ⟨{ g with successorMemo := g.successorMemo.insert v x.successors.keys },
        by simp only [vertex, hx]; rfl, rfl, fun w => ?_⟩
      exact Table.get?_insert g.successorMemo v w x.successors.keys

omit [Weight α] in
theorem Answering.successors_missing (hg : g.Answering) {v : VertexId}
    (hv : g.vertex? v = none) :
    g.successorMemo.get? v = none ∧ g.successors v = .error (.vertexNotFound v) := by
  have hmemo : g.successorMemo.get? v = none := by
    by_contra hsome
    obtain ⟨vs, hvs⟩ := Option.ne_none_iff_exists'.mp hsome
    obtain ⟨x, hx, -⟩ := hg.remembered v vs hvs
    rw [hv] at hx
    cases hx
  refine ⟨hmemo, ?_⟩
  simp only [successors, hmemo, vertex, hv]
  rfl

/-- In a reachable graph, whether it has remembered a list or not, the successors of a vertex are
the destinations of the edges that leave it, each once and in ascending order; a handle without a
vertex is refused, and nothing is remembered for it. -/
theorem successors_of_reachable {p : Procedure} {s : ModelSettings α} (h : Reachable p s g)
    (v : VertexId) :
    (∀ x, g.vertex? v = some x → ∃ k vs, g.successors v = .ok (k, vs) ∧
      Ascending vs ∧ (∀ d, d ∈ vs ↔ ∃ e ∈ g.edges, e.source = v ∧ e.dest = d) ∧
      (∀ ws, g.successorMemo.get? v = some ws → ws = vs) ∧
      { k with successorMemo := g.successorMemo } = g ∧
      ∀ w, k.successorMemo.get? w = if w = v then some vs else g.successorMemo.get? w) ∧
    (g.vertex? v = none → g.successors v = .error (.vertexNotFound v) ∧
      g.successorMemo.get? v = none ∧ g.perform (.askSuccessors v) = g) := by
  have hg := answering_of_reachable h
  constructor
  · intro x hx
    obtain ⟨k, hk, hkeep, hmemo⟩ := hg.successors_eq hx
    refine ⟨k, _, hk, x.successors.ascending, hg.tabled v x hx, fun ws hws => ?_, hkeep, hmemo⟩
    obtain ⟨y, hy, rfl⟩ := hg.remembered v ws hws
    rw [Option.some.inj (hy.symm.trans hx)]
  · intro hv
    obtain ⟨hmemo, hrefused⟩ := hg.successors_missing hv
    refine ⟨hrefused, hmemo, ?_⟩
    show g.orUnchanged (g.successors v) = g
    rw [hrefused]
    rfl

/-- A graph that was asked for the successors of its start marker before and after an edge. -/
def consulted : Graph Rat :=
  (Graph.empty ⟨⟨1⟩, "transfer", []⟩ .standard).performAll
    [.seed, .addEdge ⟨0⟩ ⟨2⟩, .askSuccessors ⟨0⟩, .addEdge ⟨0⟩ ⟨1⟩, .askSuccessors ⟨1⟩,
      .askSuccessors ⟨7⟩]

theorem successors_of_reachable_consulted :
    (∃ k vs, consulted.successors ⟨0⟩ = .ok (k, vs) ∧ Ascending vs ∧ ⟨2⟩ ∈ vs) ∧
      consulted.successorMemo.get? ⟨1⟩ = some [] ∧
      consulted.successors ⟨7⟩ = .error (.vertexNotFound ⟨7⟩) := by
  have hreach : Reachable ⟨⟨1⟩, "transfer", []⟩ .standard consulted := Reachable.empty.performAll _
  have hstart : (consulted.vertex? ⟨0⟩).isSome = true := by decide +kernel
  obtain ⟨x, hx⟩ := Option.isSome_iff_exists.mp hstart
  obtain ⟨k, vs, hk, hascending, hmem, -⟩ := (successors_of_reachable hreach ⟨0⟩).1 x hx
  have hmissing : (consulted.vertex? ⟨7⟩).isNone = true := by decide +kernel
  obtain ⟨hrefused, -, -⟩ :=
    (successors_of_reachable hreach ⟨7⟩).2 (Option.isNone_iff_eq_none.mp hmissing)
  refine ⟨⟨k, vs, hk, hascending, (hmem _).mpr ?_⟩, by decide +kernel, hrefused⟩
  have hedge : consulted.edges.toList.any
      (fun e => decide (e.source = ⟨0⟩) && decide (e.dest = ⟨2⟩)) = true := by decide +kernel
  obtain ⟨e, he, hends⟩ := List.any_eq_true.mp hedge
  exact ⟨e, Array.mem_toList_iff.mp he, by simpa using hends⟩

end Graph

end PathForecast
