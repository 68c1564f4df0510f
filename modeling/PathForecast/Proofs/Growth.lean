import PathForecast.Proofs.Itinerary
import PathForecast.Proofs.Layout

/-!
# Growth

Whatever changes the layout of a graph is made of few steps, and `Graph.Growth` lists them: seeding,
a new query vertex, a new edge, a remembered successor list. Nothing is ever removed or renamed.
Main statements: `Graph.Marked.perform_growth`, every change of a graph is such a growth,
`Graph.Growth.vertex?`, `Graph.Growth.edge?`, `Graph.Growth.edgeBetween`, what is there stays there,
and `Graph.anchored_of_reachable`, every edge of a reachable graph has its ends in it.
-/

set_option autoImplicit false

namespace PathForecast

namespace Graph

variable {α : Type}

/-! ## Single steps, looked up -/

theorem vertex?_updateVertex (g : Graph α) (v w : VertexId) (f : Vertex α → Vertex α) :
    (g.updateVertex v f).vertex? w = if v = w then (g.vertex? w).map f else g.vertex? w := by
  simp only [vertex?, updateVertex, Array.getElem?_modify, VertexId.slot_inj]

theorem edge?_updateEdge (g : Graph α) (e j : EdgeId) (f : Edge α → Edge α) :
    (g.updateEdge e f).edge? j = if e = j then (g.edge? j).map f else g.edge? j := by
  simp only [edge?, updateEdge, Array.getElem?_modify, EdgeId.slot_inj]

theorem isSome_vertex?_iff (g : Graph α) (v : VertexId) :
    (g.vertex? v).isSome ↔ v.slot < g.vertices.size := by
  simp [vertex?]

theorem slot_lt_of_vertex? {g : Graph α} {v : VertexId} {x : Vertex α}
    (h : g.vertex? v = some x) : v.slot < g.vertices.size := by
  apply (g.isSome_vertex?_iff v).mp
  rw [h]
  rfl

theorem slot_lt_of_edgeBetween {g : Graph α} {source dest : VertexId} {e : EdgeId}
    (h : g.edgeBetween source dest = some e) : source.slot < g.vertices.size := by
  obtain ⟨x, hx, _⟩ := Option.bind_eq_some_iff.mp h
  exact slot_lt_of_vertex? hx

variable [Weight α]

theorem size_pushVertex (g : Graph α) (state : VertexState) :
    (g.pushVertex state).vertices.size = g.vertices.size + 1 :=
  Array.size_push _

theorem getElem?_pushVertex (g : Graph α) (state : VertexState) (i : Nat) :
    (g.pushVertex state).vertices[i]? =
      if i = g.vertices.size then some (.fresh g.nextVertex ⟨g.nextElement⟩ state)
      else g.vertices[i]? :=
  Array.getElem?_push

theorem vertex?_pushVertex_of_lt (g : Graph α) (state : VertexState) {v : VertexId}
    (hv : v.slot < g.vertices.size) : (g.pushVertex state).vertex? v = g.vertex? v := by
  rw [vertex?, getElem?_pushVertex, if_neg (Nat.ne_of_lt hv), vertex?]

theorem edgeBetween_pushVertex (g : Graph α) (state : VertexState) (source dest : VertexId) :
    (g.pushVertex state).edgeBetween source dest = g.edgeBetween source dest := by
  unfold edgeBetween vertex?
  rw [getElem?_pushVertex]
  split
  · next h =>
      rw [h, Array.getElem?_size]
      rfl
  · rfl

/-- Seeding adds the three markers, and a bucket for every statement. -/
theorem seed_of_unseeded {g : Graph α} (h : g.seeded = false) :
    g.seed = { ((g.pushVertex .start).pushVertex .commit).pushVertex .abort with
      seeded := true
      index := g.procedure.statements.foldl
        (fun t s => if (t.get? s.id).isSome then t else t.insert s.id #[]) g.index } := by
  rw [seed, h]
  rfl

theorem vertex?_seed_of_lt {g : Graph α} (h : g.seeded = false) {v : VertexId}
    (hv : v.slot < g.vertices.size) : g.seed.vertex? v = g.vertex? v := by
  rw [seed_of_unseeded h]
  show (((g.pushVertex .start).pushVertex .commit).pushVertex .abort).vertex? v = g.vertex? v
  have hv' : v.slot < ((g.pushVertex .start).pushVertex .commit).vertices.size := by
    simp only [size_pushVertex]
    omega
  rw [vertex?_pushVertex_of_lt _ _ hv', vertex?_pushVertex_of_lt, vertex?_pushVertex_of_lt _ _ hv]
  rw [size_pushVertex]
  omega

theorem edgeBetween_seed {g : Graph α} (h : g.seeded = false) (source dest : VertexId) :
    g.seed.edgeBetween source dest = g.edgeBetween source dest := by
  rw [seed_of_unseeded h]
  show (((g.pushVertex .start).pushVertex .commit).pushVertex .abort).edgeBetween source dest = _
  rw [edgeBetween_pushVertex, edgeBetween_pushVertex, edgeBetween_pushVertex]

theorem vertices_pushEdge (g : Graph α) (source dest : VertexId) :
    (g.pushEdge source dest).vertices =
      (g.updateVertex source (·.addSuccessor dest g.nextEdge)).vertices := rfl

theorem getElem?_pushEdge (g : Graph α) (source dest : VertexId) (j : Nat) :
    (g.pushEdge source dest).edges[j]? =
      if j = g.edges.size then some (.fresh g.nextEdge ⟨g.nextElement⟩ source dest)
      else g.edges[j]? :=
  Array.getElem?_push

theorem vertex?_pushEdge (g : Graph α) (source dest v : VertexId) :
    (g.pushEdge source dest).vertex? v =
      if source = v then (g.vertex? v).map (·.addSuccessor dest g.nextEdge) else g.vertex? v :=
  g.vertex?_updateVertex source v _

theorem edgeBetween_pushEdge (g : Graph α) {source : VertexId} (dest : VertexId)
    (hs : source.slot < g.vertices.size) (s d : VertexId) :
    (g.pushEdge source dest).edgeBetween s d =
      if s = source ∧ d = dest then some g.nextEdge else g.edgeBetween s d := by
  obtain ⟨x, hx⟩ := Option.isSome_iff_exists.mp ((g.isSome_vertex?_iff source).mpr hs)
  unfold edgeBetween
  rw [vertex?_pushEdge]
  by_cases hsource : source = s
  · subst hsource
    rw [if_pos rfl, hx]
    simp only [Option.map_some, Option.bind_some, true_and]
    exact Table.get?_insert x.successors dest d g.nextEdge
  · rw [if_neg hsource, if_neg (fun h => hsource h.1.symm)]

def pushQuery (g : Graph α) (key : VertexKey) : Graph α :=
  { g.pushVertex (.query key) with
    index := g.index.insert key.statement ((g.bucket key.statement).push g.nextVertex) }

theorem ensureVertex_of_none {g : Graph α} {key : VertexKey} (h : g.findKey key = none) :
    g.ensureVertex key = (g.pushQuery key, g.nextVertex) := by
  simp only [ensureVertex, h]
  rfl

theorem ensureVertex_of_some {g : Graph α} {key : VertexKey} {v : VertexId}
    (h : g.findKey key = some v) : g.ensureVertex key = (g, v) := by
  simp only [ensureVertex, h]

/-- What a new query vertex does not change, no visit changes. -/
theorem ensureVertex_keeps {g : Graph α} {key : VertexKey} {γ : Type} (view : Graph α → γ)
    (hpush : view (g.pushQuery key) = view g) : view (g.ensureVertex key).1 = view g := by
  cases h : g.findKey key with
  | some v => rw [ensureVertex_of_some h]
  | none =>
      rw [ensureVertex_of_none h]
      exact hpush

theorem ensureEdge_of_none {g : Graph α} {source dest : VertexId}
    (h : g.edgeBetween source dest = none) :
    g.ensureEdge source dest = (g.pushEdge source dest, g.nextEdge) := by
  simp only [ensureEdge, h]

theorem ensureEdge_of_some {g : Graph α} {source dest : VertexId} {e : EdgeId}
    (h : g.edgeBetween source dest = some e) : g.ensureEdge source dest = (g, e) := by
  simp only [ensureEdge, h]

theorem ensureEdge_keeps {g : Graph α} {source dest : VertexId} {γ : Type} (view : Graph α → γ)
    (hpush : g.edgeBetween source dest = none → view (g.pushEdge source dest) = view g) :
    view (g.ensureEdge source dest).1 = view g := by
  cases h : g.edgeBetween source dest with
  | some e => rw [ensureEdge_of_some h]
  | none =>
      rw [ensureEdge_of_none h]
      exact hpush h

/-! ## Growth -/

/-- The ways in which a layout changes. -/
inductive Growth : Graph α → Graph α → Prop
  /-- Only counters, samples, forecasts and remembered outcomes change. -/
  | retain {g k : Graph α} (h : k.layout = g.layout) : Growth g k
  | remember {g : Graph α} (v : VertexId) {x : Vertex α} (hx : g.vertex? v = some x) :
      Growth g { g with successorMemo := g.successorMemo.insert v x.successors.keys }
  | markers {g : Graph α} (h : g.seeded = false) : Growth g g.seed
  | query {g : Graph α} (key : VertexKey) (hseeded : g.seeded = true)
      (hdeclared : g.procedure.declares key.statement = true) (hnew : g.findKey key = none) :
      Growth g (g.pushQuery key)
  | edge {g : Graph α} (source dest : VertexId) (hs : source.slot < g.vertices.size)
      (hd : dest.slot < g.vertices.size) (hnew : g.edgeBetween source dest = none) :
      Growth g (g.pushEdge source dest)
  | trans {g k l : Graph α} : Growth g k → Growth k l → Growth g l

namespace Growth

variable {g k : Graph α}

theorem refl (g : Graph α) : Growth g g := .retain rfl

/-- What a vertex keeps for ever. -/
theorem vertex? (h : Growth g k) {v : VertexId} {x : Vertex α} (hx : g.vertex? v = some x) :
    ∃ y, k.vertex? v = some y ∧ y.id = x.id ∧ y.element = x.element ∧ y.state = x.state := by
  induction h generalizing x with
  | retain h =>
      obtain ⟨y, hy, hf⟩ := vertex_of_layout h.symm hx
      obtain ⟨hid, helement, hstate, _⟩ := (y.frame_eq_iff x).mp hf
      exact ⟨y, hy, hid, helement, hstate⟩
  | remember => exact ⟨x, hx, rfl, rfl, rfl⟩
  | markers h =>
      exact ⟨x, (vertex?_seed_of_lt h (slot_lt_of_vertex? hx)).trans hx, rfl, rfl, rfl⟩
  | query key _ _ _ =>
      exact ⟨x, (vertex?_pushVertex_of_lt _ _ (slot_lt_of_vertex? hx)).trans hx, rfl, rfl, rfl⟩
  | edge source dest _ _ _ =>
      rw [vertex?_pushEdge]
      split
      · exact ⟨x.addSuccessor dest _, by rw [hx]; rfl, rfl, rfl, rfl⟩
      · exact ⟨x, hx, rfl, rfl, rfl⟩
  | trans _ _ ih₁ ih₂ =>
      obtain ⟨y, hy, hid, helement, hstate⟩ := ih₁ hx
      obtain ⟨z, hz, hid', helement', hstate'⟩ := ih₂ hy
      exact ⟨z, hz, hid'.trans hid, helement'.trans helement, hstate'.trans hstate⟩

theorem state? (h : Growth g k) {v : VertexId} {s : VertexState} (hs : g.state? v = some s) :
    k.state? v = some s := by
  obtain ⟨x, hx, rfl⟩ := Option.map_eq_some_iff.mp hs
  obtain ⟨y, hy, -, -, hstate⟩ := h.vertex? hx
  rw [Graph.state?, hy, Option.map_some, hstate]

/-- What an edge keeps for ever. -/
theorem edge? (h : Growth g k) {j : EdgeId} {e : Edge α} (he : g.edge? j = some e) :
    ∃ f, k.edge? j = some f ∧ f.frame = e.frame := by
  induction h generalizing e with
  | retain h => exact edge_of_layout h.symm he
  | remember => exact ⟨e, he, rfl⟩
  | markers h =>
      refine ⟨e, ?_, rfl⟩
      rw [seed_of_unseeded h]
      exact he
  | query => exact ⟨e, he, rfl⟩
  | @edge g source dest _ _ _ =>
      refine ⟨e, ?_, rfl⟩
      have hlt : j.slot < g.edges.size := (Array.getElem?_eq_some_iff.mp he).1
      rw [Graph.edge?, getElem?_pushEdge, if_neg (Nat.ne_of_lt hlt)]
      exact he
  | trans _ _ ih₁ ih₂ =>
      obtain ⟨f, hf, hframe⟩ := ih₁ he
      obtain ⟨f', hf', hframe'⟩ := ih₂ hf
      exact ⟨f', hf', hframe'.trans hframe⟩

/-- A pair that is joined stays joined by the same edge. -/
theorem edgeBetween (h : Growth g k) {source dest : VertexId} {e : EdgeId}
    (he : g.edgeBetween source dest = some e) : k.edgeBetween source dest = some e := by
  induction h with
  | retain h => rw [edgeBetween_of_layout h, he]
  | remember => exact he
  | markers h => rw [edgeBetween_seed h, he]
  | query key _ _ _ => exact (edgeBetween_pushVertex _ _ _ _).trans he
  | edge s d hs _ hnew =>
      -- the new pair was not joined before, so it is another one
      rw [edgeBetween_pushEdge _ _ hs, if_neg, he]
      rintro ⟨rfl, rfl⟩
      rw [hnew] at he
      cases he
  | trans _ _ ih₁ ih₂ => exact ih₂ (ih₁ he)

theorem size_le (h : Growth g k) :
    g.vertices.size ≤ k.vertices.size ∧ g.edges.size ≤ k.edges.size := by
  induction h with
  | retain h =>
      rw [size_vertices_of_layout h, size_edges_of_layout h]
      exact ⟨Nat.le_refl _, Nat.le_refl _⟩
  | remember => exact ⟨Nat.le_refl _, Nat.le_refl _⟩
  | @markers g h =>
      rw [seed_of_unseeded h]
      show g.vertices.size ≤
          (((g.pushVertex .start).pushVertex .commit).pushVertex .abort).vertices.size ∧
        g.edges.size ≤ g.edges.size
      simp only [size_pushVertex]
      omega
  | query => simp [pushQuery, pushVertex]
  | edge => simp [pushEdge, updateVertex]
  | trans _ _ ih₁ ih₂ => exact ⟨ih₁.1.trans ih₂.1, ih₁.2.trans ih₂.2⟩

theorem settings_eq (h : Growth g k) : k.settings = g.settings := by
  induction h with
  | retain h => exact congrArg Layout.settings h
  | markers h =>
      rw [seed_of_unseeded h]
      rfl
  | trans _ _ ih₁ ih₂ => exact ih₂.trans ih₁
  | _ => rfl

theorem procedure_eq (h : Growth g k) : k.procedure = g.procedure := by
  induction h with
  | retain h => exact congrArg Layout.procedure h
  | markers h =>
      rw [seed_of_unseeded h]
      rfl
  | trans _ _ ih₁ ih₂ => exact ih₂.trans ih₁
  | _ => rfl

theorem seeded_of_seeded (h : Growth g k) (hg : g.seeded = true) : k.seeded = true := by
  induction h with
  | retain h => exact (congrArg Layout.seeded h).trans hg
  | markers h => rw [hg] at h; cases h
  | trans _ _ ih₁ ih₂ => exact ih₂ (ih₁ hg)
  | _ => exact hg

end Growth

/-! ## Markers -/

/-- A seeded graph has its markers in the first three slots; before seeding there is nothing. -/
structure Marked (g : Graph α) : Prop where
  unseeded : g.seeded = false → g.vertices.size = 0 ∧ g.edges.size = 0
  start : g.seeded = true → g.state? Markers.fixed.start = some .start
  commit : g.seeded = true → g.state? Markers.fixed.commit = some .commit
  abort : g.seeded = true → g.state? Markers.fixed.abort = some .abort

omit [Weight α] in
theorem marked_empty (p : Procedure) (s : ModelSettings α) : (Graph.empty p s).Marked :=
  ⟨fun _ => ⟨rfl, rfl⟩, nofun, nofun, nofun⟩

theorem marked_seed {g : Graph α} (hg : g.Marked) (h : g.seeded = false) : g.seed.Marked := by
  obtain ⟨hsize, _⟩ := hg.unseeded h
  -- in a graph without vertices the markers come to lie in the first three slots
  have hempty : g.vertices = #[] := Array.eq_empty_of_size_eq_zero hsize
  rw [seed_of_unseeded h]
  refine ⟨nofun, fun _ => ?_, fun _ => ?_, fun _ => ?_⟩
  all_goals
    simp [state?, vertex?, pushVertex, hempty, Markers.fixed, VertexId.slot, Vertex.fresh]

theorem Growth.marked {g k : Graph α} (h : Growth g k) (hg : g.Marked) : k.Marked := by
  -- once a graph is seeded, its markers stay like any other vertex
  have hkeep : ∀ {g k : Graph α}, Growth g k → g.seeded = true → g.Marked → k.Marked := by
    intro g k h hseeded hg
    refine ⟨fun hk => ?_, fun _ => ?_, fun _ => ?_, fun _ => ?_⟩
    · rw [h.seeded_of_seeded hseeded] at hk
      cases hk
    · exact h.state? (hg.start hseeded)
    · exact h.state? (hg.commit hseeded)
    · exact h.state? (hg.abort hseeded)
  induction h with
  | @retain g k h =>
      by_cases hseeded : g.seeded = true
      · exact hkeep (.retain h) hseeded hg
      · have hk : k.seeded = g.seeded := congrArg Layout.seeded h
        refine ⟨fun _ => ?_, ?_, ?_, ?_⟩
        · rw [size_vertices_of_layout h, size_edges_of_layout h]
          exact hg.unseeded (by simpa using hseeded)
        all_goals
          intro hk'
          exact absurd (hk.symm.trans hk') hseeded
  | remember => exact ⟨hg.unseeded, hg.start, hg.commit, hg.abort⟩
  | markers h => exact marked_seed hg h
  | query key hseeded hdeclared hnew => exact hkeep (.query key hseeded hdeclared hnew) hseeded hg
  | @edge g source dest hs hd hnew =>
      -- an edge has ends, so there are vertices
      refine hkeep (.edge source dest hs hd hnew) ?_ hg
      by_contra hseeded
      have hempty := (hg.unseeded (by simpa using hseeded)).1
      omega
  | trans _ _ ih₁ ih₂ => exact ih₂ (ih₁ hg)

omit [Weight α] in
theorem Marked.slot_lt {g : Graph α} (hg : g.Marked) (h : g.seeded = true) {v : VertexId}
    (hv : v = Markers.fixed.start ∨ v = Markers.fixed.commit ∨ v = Markers.fixed.abort) :
    v.slot < g.vertices.size := by
  have hstate : (g.state? v).isSome := by
    rcases hv with rfl | rfl | rfl
    · rw [hg.start h]; rfl
    · rw [hg.commit h]; rfl
    · rw [hg.abort h]; rfl
  rw [state?, Option.isSome_map] at hstate
  exact (g.isSome_vertex?_iff v).mp hstate

/-! ## Every change grows the graph -/

theorem growth_ensureVertex {g : Graph α} {key : VertexKey} (hseeded : g.seeded = true)
    (hdeclared : g.procedure.declares key.statement = true) :
    Growth g (g.ensureVertex key).1 := by
  cases h : g.findKey key with
  | some v => rw [ensureVertex_of_some h]; exact .refl g
  | none => rw [ensureVertex_of_none h]; exact .query key hseeded hdeclared h

theorem slot_ensureVertex_lt (g : Graph α) (key : VertexKey) :
    (g.ensureVertex key).2.slot < (g.ensureVertex key).1.vertices.size := by
  cases h : g.findKey key with
  | some v =>
      rw [ensureVertex_of_some h]
      rw [findKey_eq] at h
      have hv := Array.find?_some h
      rw [state?, Option.any_map] at hv
      obtain ⟨x, hx, _⟩ := Option.any_eq_true _ _ |>.mp hv
      exact slot_lt_of_vertex? hx
  | none =>
      rw [ensureVertex_of_none h]
      show g.nextVertex.slot < (g.pushVertex (.query key)).vertices.size
      -- a handle that has wrapped names an earlier slot
      rw [size_pushVertex]
      exact Nat.lt_succ_of_le (Nat.mod_le _ _)

theorem growth_ensureEdge {g : Graph α} {source dest : VertexId}
    (hs : source.slot < g.vertices.size) (hd : dest.slot < g.vertices.size) :
    Growth g (g.ensureEdge source dest).1 := by
  cases h : g.edgeBetween source dest with
  | some e => rw [ensureEdge_of_some h]; exact .refl g
  | none => rw [ensureEdge_of_none h]; exact .edge source dest hs hd h

theorem growth_traverseEdge {g : Graph α} (sample : SampleKey) {source dest : VertexId}
    (remaining : UInt64) (hs : source.slot < g.vertices.size) (hd : dest.slot < g.vertices.size) :
    Growth g (g.traverseEdge sample source dest remaining) := by
  refine (growth_ensureEdge hs hd).trans (.retain ?_)
  exact (layout_updateEdge _ _ fun e => e.frame_recordHit).trans
    (layout_updateVertex _ _ fun _ => rfl)

/-! ## Walking grows the graph -/

/-- A transaction that has reached a vertex can follow its visits from there. -/
structure Ready (g : Graph α) (previous : VertexId) (visits : List Visit) : Prop where
  seeded : g.seeded = true
  slot_lt : previous.slot < g.vertices.size
  declared : ∀ visit ∈ visits, g.procedure.declares visit.key.statement = true

namespace Ready

variable {g : Graph α} {previous : VertexId} {visit : Visit} {visits : List Visit}

theorem growth_ensureVertex (h : g.Ready previous (visit :: visits)) :
    Growth g (g.ensureVertex visit.key).1 :=
  Graph.growth_ensureVertex h.seeded (h.declared visit List.mem_cons_self)

/-- The vertex of the visit is there, and the transaction moves on to it. -/
theorem growth_move (h : g.Ready previous (visit :: visits)) (sample : SampleKey) :
    Growth (g.ensureVertex visit.key).1 (g.follow sample previous visit).1 := by
  have hprevious : previous.slot < (g.ensureVertex visit.key).1.vertices.size :=
    h.slot_lt.trans_le h.growth_ensureVertex.size_le.1
  exact growth_traverseEdge sample visit.remaining hprevious (g.slot_ensureVertex_lt visit.key)

theorem growth_follow (h : g.Ready previous (visit :: visits)) (sample : SampleKey) :
    Growth g (g.follow sample previous visit).1 :=
  h.growth_ensureVertex.trans (h.growth_move sample)

theorem follow (h : g.Ready previous (visit :: visits)) (sample : SampleKey) :
    (g.follow sample previous visit).1.Ready (g.follow sample previous visit).2 visits where
  seeded := (h.growth_follow sample).seeded_of_seeded h.seeded
  slot_lt := (g.slot_ensureVertex_lt visit.key).trans_le (h.growth_move sample).size_le.1
  declared w hw := by
    rw [(h.growth_follow sample).procedure_eq]
    exact h.declared w (List.mem_cons_of_mem _ hw)

end Ready

theorem followAll_cons (g : Graph α) (sample : SampleKey) (previous : VertexId) (visit : Visit)
    (visits : List Visit) :
    g.followAll sample previous (visit :: visits) =
      (((g.follow sample previous visit).1.followAll sample
          (g.follow sample previous visit).2 visits).1,
        (g.follow sample previous visit).2 ::
          ((g.follow sample previous visit).1.followAll sample
            (g.follow sample previous visit).2 visits).2) := rfl

/-- Following visits grows the graph, and the path stays inside it. -/
theorem growth_followAll (sample : SampleKey) (visits : List Visit) :
    ∀ {g : Graph α} {previous : VertexId}, g.Ready previous visits →
      Growth g (g.followAll sample previous visits).1 ∧
        ∀ v ∈ previous :: (g.followAll sample previous visits).2,
          v.slot < (g.followAll sample previous visits).1.vertices.size := by
  induction visits with
  | nil =>
      intro g previous h
      refine ⟨.refl g, fun v hv => ?_⟩
      rw [List.mem_singleton.mp hv]
      exact h.slot_lt
  | cons visit visits ih =>
      intro g previous h
      obtain ⟨hrest, hslots⟩ := ih (h.follow sample)
      have hgrow := (h.growth_follow sample).trans hrest
      rw [followAll_cons]
      refine ⟨hgrow, fun v hv => ?_⟩
      rcases List.mem_cons.mp hv with rfl | hv
      · exact h.slot_lt.trans_le hgrow.size_le.1
      · exact hslots v hv

omit [Weight α] in
theorem slot_terminal_lt {g : Graph α} (hg : g.Marked) (h : g.seeded = true) (aborted : Bool) :
    (terminal aborted).slot < g.vertices.size := by
  cases aborted with
  | false => exact hg.slot_lt h (.inr (.inl rfl))
  | true => exact hg.slot_lt h (.inr (.inr rfl))

omit [Weight α] in
/-- A transaction of declared statements can enter a seeded graph. -/
theorem Marked.ready_enter {g : Graph α} (hg : g.Marked) (h : g.seeded = true)
    (t : TransactionTrace) {visits : List Visit}
    (hdeclared : ∀ visit ∈ visits, g.procedure.declares visit.key.statement = true) :
    (g.enter t.sampleKey t.elapsed).Ready Markers.fixed.start visits := by
  refine ⟨h, ?_, hdeclared⟩
  rw [size_vertices_of_layout (layout_enter g t.sampleKey t.elapsed)]
  exact hg.slot_lt h (.inl rfl)

def followed (g : Graph α) (t : TransactionTrace) (visits : List Visit) :
    Graph α × List VertexId :=
  (g.enter t.sampleKey t.elapsed).followAll t.sampleKey Markers.fixed.start visits

def lastFollowed (g : Graph α) (t : TransactionTrace) (visits : List Visit) : VertexId :=
  (Markers.fixed.start :: (g.followed t visits).2).getLastD Markers.fixed.start

theorem walk_eq (g : Graph α) (t : TransactionTrace) (visits : List Visit) :
    g.walk t visits =
      (((g.followed t visits).1.traverseEdge t.sampleKey (g.lastFollowed t visits)
          (terminal t.aborted) 0).countTransaction,
        Markers.fixed.start :: (g.followed t visits).2 ++ [terminal t.aborted]) := rfl

/-- What entering, following a visit, leaving and counting keep, a whole walk keeps. -/
theorem walk_induction {motive : Graph α → Prop} {t : TransactionTrace} {visits : List Visit}
    (enter : ∀ {g : Graph α}, motive g → motive (g.enter t.sampleKey t.elapsed))
    (follow : ∀ {g : Graph α} (previous : VertexId), ∀ visit ∈ visits, motive g →
      motive (g.follow t.sampleKey previous visit).1)
    (leave : ∀ {g : Graph α} (previous : VertexId), motive g →
      motive (g.leave t.sampleKey previous t.aborted))
    (count : ∀ {g : Graph α}, motive g → motive g.countTransaction) {g : Graph α}
    (h : motive g) : motive (g.walk t visits).1 := by
  have hfollowAll : ∀ rest, rest ⊆ visits → ∀ {g : Graph α} (previous : VertexId), motive g →
      motive (g.followAll t.sampleKey previous rest).1 := by
    intro rest
    induction rest with
    | nil => exact fun _ {_} _ h => h
    | cons visit rest ih =>
        intro hsub g previous h
        obtain ⟨hvisit, hrest⟩ := List.cons_subset.mp hsub
        exact ih hrest _ (follow previous visit hvisit h)
  exact count (leave _ (hfollowAll visits (List.Subset.refl _) _ (enter h)))

section Walk

variable {g : Graph α} (hg : g.Marked) (h : g.seeded = true) (t : TransactionTrace)
  {visits : List Visit}
  (hdeclared : ∀ visit ∈ visits, g.procedure.declares visit.key.statement = true)

include hg h hdeclared

theorem growth_followed : Growth g (g.followed t visits).1 := by
  have henter : Growth g (g.enter t.sampleKey t.elapsed) := .retain (layout_enter g _ _)
  exact henter.trans (growth_followAll t.sampleKey visits (hg.ready_enter h t hdeclared)).1

theorem slot_lastFollowed_lt :
    (g.lastFollowed t visits).slot < (g.followed t visits).1.vertices.size := by
  refine (growth_followAll t.sampleKey visits (hg.ready_enter h t hdeclared)).2 _ ?_
  rw [lastFollowed, List.getLastD_cons]
  exact List.getLastD_mem_cons

theorem slot_terminal_followed_lt :
    (terminal t.aborted).slot < (g.followed t visits).1.vertices.size := by
  have hgrow := growth_followed hg h t hdeclared
  exact slot_terminal_lt (hgrow.marked hg) (hgrow.seeded_of_seeded h) t.aborted

/-- Leaving is a growth too, the last one of a walk. -/
theorem growth_leave : Growth (g.followed t visits).1 (g.walk t visits).1 := by
  rw [walk_eq]
  refine Growth.trans ?_ (.retain (layout_countTransaction _))
  exact growth_traverseEdge t.sampleKey 0 (slot_lastFollowed_lt hg h t hdeclared)
    (slot_terminal_followed_lt hg h t hdeclared)

theorem growth_walk : Growth g (g.walk t visits).1 :=
  (growth_followed hg h t hdeclared).trans (growth_leave hg h t hdeclared)

end Walk

/-! ## Ends of edges -/

def Anchored (g : Graph α) : Prop :=
  ∀ (j : Nat) (e : Edge α), g.edges[j]? = some e →
    e.source.slot < g.vertices.size ∧ e.dest.slot < g.vertices.size

namespace Anchored

variable {g k : Graph α}

omit [Weight α] in
theorem ends_of_mem (hg : g.Anchored) {e : Edge α} (he : e ∈ g.edges) :
    e.source.slot < g.vertices.size ∧ e.dest.slot < g.vertices.size := by
  obtain ⟨j, hj⟩ := Array.mem_iff_getElem?.mp he
  exact hg j e hj

omit [Weight α] in
theorem of_layout (hg : g.Anchored) (h : k.layout = g.layout) : k.Anchored := by
  intro j f hf
  obtain ⟨e, he, hframe⟩ := edge_of_layout h hf
  obtain ⟨-, -, hsource, hdest⟩ := (e.frame_eq_iff f).mp hframe
  rw [size_vertices_of_layout h, ← hsource, ← hdest]
  exact hg j e he

omit [Weight α] in
/-- New vertices leave the ends of the edges where they are. -/
theorem of_size_le (hg : g.Anchored) (hedges : k.edges = g.edges)
    (hsize : g.vertices.size ≤ k.vertices.size) : k.Anchored := by
  intro j e he
  rw [hedges] at he
  obtain ⟨hs, hd⟩ := hg j e he
  exact ⟨hs.trans_le hsize, hd.trans_le hsize⟩

theorem pushEdge (hg : g.Anchored) {source dest : VertexId} (hs : source.slot < g.vertices.size)
    (hd : dest.slot < g.vertices.size) : (g.pushEdge source dest).Anchored := by
  intro j e he
  rw [vertices_pushEdge, updateVertex, Array.size_modify]
  rw [getElem?_pushEdge] at he
  split at he
  · cases he
    exact ⟨hs, hd⟩
  · exact hg j e he

end Anchored

theorem Growth.anchored {g k : Graph α} (h : Growth g k) (hg : g.Anchored) : k.Anchored := by
  induction h with
  | retain h => exact hg.of_layout h
  | remember => exact hg
  | markers h =>
      refine hg.of_size_le ?_ (Growth.markers h).size_le.1
      rw [seed_of_unseeded h]
      rfl
  | query key hseeded hdeclared hnew =>
      exact hg.of_size_le rfl (Growth.query key hseeded hdeclared hnew).size_le.1
  | edge source dest hs hd _ => exact hg.pushEdge hs hd
  | trans _ _ ih₁ ih₂ => exact ih₂ (ih₁ hg)

omit [Weight α] in
theorem Anchored.missingEnd?_eq_none {g : Graph α} (hg : g.Anchored) : g.missingEnd? = none := by
  unfold missingEnd?
  rw [List.findSome?_eq_none_iff]
  intro e he
  obtain ⟨j, hj⟩ := List.mem_iff_getElem?.mp he
  rw [Array.getElem?_toList] at hj
  obtain ⟨hs, hd⟩ := hg j e hj
  have hpresent : ∀ v : VertexId, v.slot < g.vertices.size → ¬(g.vertex? v).isNone = true := by
    intro v hv
    rw [Bool.not_eq_true, Option.isNone_eq_false_iff]
    exact (g.isSome_vertex?_iff v).mpr hv
  rw [if_neg (hpresent _ hs), if_neg (hpresent _ hd)]

/-! ## Accepted changes -/

omit [Weight α] in
theorem markers_eq (g : Graph α) :
    g.markers = if g.seeded then .ok .fixed else .error (.notInitialized g.procedure.id) := rfl

theorem learn_eq_ok_iff (g : Graph α) (t : TransactionTrace) (estimator : Estimator)
    (r : Graph α × List VertexId) :
    g.learn t estimator = .ok r ↔
      g.seeded = true ∧ ∃ visits, t.resolve g.procedure estimator = .ok visits ∧
        r = g.walk t visits := by
  unfold learn
  rw [markers_eq]
  cases hseeded : g.seeded with
  | false => simp [bind, Except.bind]
  | true =>
      cases hresolve : t.resolve g.procedure estimator with
      | error fault => simp [bind, Except.bind]
      | ok visits => simp [bind, Except.bind, pure, Except.pure, eq_comm]

/-- The parts of an accepted recompute. -/
theorem recompute_eq_ok_iff (g k : Graph α) :
    g.recompute = .ok k ↔
      g.seeded = true ∧ g.missingEnd? = none ∧
        k = { g.closeWindow.deriveProbabilities.propagate with
          recomputeCount := g.recomputeCount + 1
          transactionsAtRecompute := g.transactionCount } := by
  unfold recompute
  rw [markers_eq]
  cases hseeded : g.seeded with
  | false => simp [bind, Except.bind]
  | true =>
      cases hend : g.missingEnd? with
      | some v => simp [bind, Except.bind, throw, throwThe, MonadExceptOf.throw]
      | none =>
          simp only [if_true, true_and, bind, Except.bind, pure, Except.pure,
            Except.ok.injEq]
          exact eq_comm

/-- A seeded graph whose edges have their ends in it can be recomputed. -/
theorem Anchored.exists_recompute {g : Graph α} (hg : g.Anchored) (h : g.seeded = true) :
    ∃ k, g.recompute = .ok k :=
  ⟨_, (recompute_eq_ok_iff g _).mpr ⟨h, hg.missingEnd?_eq_none, rfl⟩⟩

theorem layout_of_recompute {g k : Graph α} (h : g.recompute = .ok k) : k.layout = g.layout := by
  obtain ⟨_, _, rfl⟩ := (recompute_eq_ok_iff g k).mp h
  show g.closeWindow.deriveProbabilities.propagate.layout = g.layout
  simp

theorem growth_learn {g : Graph α} (hg : g.Marked) {t : TransactionTrace} {estimator : Estimator}
    {r : Graph α × List VertexId} (h : g.learn t estimator = .ok r) : Growth g r.1 := by
  obtain ⟨hseeded, visits, hvisits, rfl⟩ := (learn_eq_ok_iff g t estimator r).mp h
  refine growth_walk hg hseeded t fun visit hmem => ?_
  exact (itinerary_of_resolve hvisits).declares _ (List.mem_map_of_mem hmem)

theorem growth_addEdge {g : Graph α} {source dest : VertexId} {r : Graph α × EdgeId}
    (h : g.addEdge source dest = .ok r) : Growth g r.1 := by
  unfold addEdge vertex at h
  cases hs : g.vertex? source with
  | none => simp [hs, bind, Except.bind] at h
  | some x =>
      cases hd : g.vertex? dest with
      | none => simp [hs, hd, bind, Except.bind] at h
      | some y =>
          simp only [hs, hd, bind, Except.bind, pure, Except.pure, Except.ok.injEq] at h
          rw [← h]
          exact growth_ensureEdge (slot_lt_of_vertex? hs) (slot_lt_of_vertex? hd)

theorem growth_successors {g : Graph α} {v : VertexId} {r : Graph α × List VertexId}
    (h : g.successors v = .ok r) : Growth g r.1 := by
  unfold successors vertex at h
  cases hmemo : g.successorMemo.get? v with
  | some vs =>
      simp only [hmemo, Except.ok.injEq] at h
      rw [← h]
      exact .refl g
  | none =>
      cases hv : g.vertex? v with
      | none => simp [hmemo, hv, bind, Except.bind] at h
      | some x =>
          simp only [hmemo, hv, bind, Except.bind, pure, Except.pure, Except.ok.injEq] at h
          rw [← h]
          exact .remember v hv

theorem growth_orUnchanged {β : Type} {g : Graph α} {r : Except Fault (Graph α × β)}
    (h : ∀ k, r = .ok k → Growth g k.1) : Growth g (g.orUnchanged r) := by
  cases r with
  | error fault => exact .refl g
  | ok k => exact h k rfl

/-- Every change of a graph is a growth. -/
theorem Marked.perform_growth {g : Graph α} (hg : g.Marked) (c : Change) :
    Growth g (g.perform c) := by
  cases c with
  | seed =>
      show Growth g g.seed
      cases hseeded : g.seeded with
      | true => rw [seed, if_pos hseeded]; exact .refl g
      | false => exact .markers hseeded
  | learn t estimator => exact growth_orUnchanged fun k => growth_learn hg
  | recompute =>
      show Growth g (g.recompute.toOption.getD g)
      cases h : g.recompute with
      | error fault => exact .refl g
      | ok k => exact .retain (layout_of_recompute h)
  | resetCounters => exact .retain (layout_resetCounters g)
  | addEdge source dest => exact growth_orUnchanged fun k => growth_addEdge
  | askSuccessors v => exact growth_orUnchanged fun k => growth_successors
  | rememberBatchEnd key outcome =>
      show Growth g (g.addCachedBatchEnd key outcome).1
      unfold addCachedBatchEnd
      split
      · exact .refl g
      · exact .retain rfl
  | recordMisprediction => exact .retain (layout_recordMisprediction g)
  | hitVertex v => exact .retain (layout_updateVertex g v (·.frame_recordHit))
  | foldVertex v => exact .retain (layout_updateVertex g v (·.frame_foldHits))
  | timeVertex v sample duration =>
      exact .retain (layout_updateVertex g v (·.frame_recordElapsed sample duration))
  | clearForecast v => exact .retain (layout_updateVertex g v (·.frame_clearForecast))
  | hitEdge e => exact .retain (layout_updateEdge g e (·.frame_recordHit))
  | foldEdge e => exact .retain (layout_updateEdge g e (·.frame_foldHits))
  | deriveEdge e sourceHits => exact .retain (layout_updateEdge g e (·.frame_derive sourceHits))

theorem marked_of_reachable {p : Procedure} {s : ModelSettings α} {g : Graph α}
    (h : Reachable p s g) : g.Marked := by
  induction h with
  | empty => exact marked_empty p s
  | step c _ ih => exact (ih.perform_growth c).marked ih

/-- A reachable graph has grown from the empty one. -/
theorem growth_of_reachable {p : Procedure} {s : ModelSettings α} {g : Graph α}
    (h : Reachable p s g) : Growth (Graph.empty p s) g := by
  induction h with
  | empty => exact .refl _
  | step c hr ih => exact ih.trans ((marked_of_reachable hr).perform_growth c)

theorem anchored_of_reachable {p : Procedure} {s : ModelSettings α} {g : Graph α}
    (h : Reachable p s g) : g.Anchored :=
  (growth_of_reachable h).anchored nofun

end Graph

end PathForecast
