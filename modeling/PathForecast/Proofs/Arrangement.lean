import PathForecast.Graph.Audit
import PathForecast.Proofs.Growth

/-!
# Arrangement

In a reachable graph three bookkeepings agree: the arrays (a vertex or an edge has the handle of
its slot), the counter of element ids (vertices and edges have drawn `0, 1, 2, …`, each number
once) and the successor tables (a table lists exactly the edges of the edge array). `Arranged`
states the agreement, `Growth.arranged` keeps it as long as every slot has a handle of its own
(`Fits`), and `arranged_of_reachable` finds it in every reachable graph. An audit of such a graph
reports no double id, no parallel edge and no dangling edge.
-/

set_option autoImplicit false

namespace PathForecast

def Edge.pair {α : Type} (e : Edge α) : VertexId × VertexId := (e.source, e.dest)

namespace Graph

variable {α : Type}

/-- Every slot has a handle of its own: handles are 32-bit words. -/
structure Fits (g : Graph α) : Prop where
  vertices : g.vertices.size ≤ UInt32.size
  edges : g.edges.size ≤ UInt32.size

/-- Arrays, element ids and successor tables agree. -/
structure Arranged (g : Graph α) : Prop where
  vertexSlot : ∀ (i : Nat) (x : Vertex α), g.vertices[i]? = some x → x.id.slot = i
  edgeSlot : ∀ (j : Nat) (e : Edge α), g.edges[j]? = some e → e.id.slot = j
  nextElement : g.nextElement.toNat = g.vertices.size + g.edges.size
  /-- The element ids are the first natural numbers, each used once. -/
  elements : g.elementNumbers.Perm (List.range (g.vertices.size + g.edges.size))
  ends : ∀ (j : Nat) (e : Edge α), g.edges[j]? = some e →
    e.source.slot < g.vertices.size ∧ e.dest.slot < g.vertices.size
  /-- The table of a vertex leads to a destination by the edge that runs there. -/
  joined : ∀ source dest j, g.edgeBetween source dest = some j ↔
    ∃ e, g.edge? j = some e ∧ e.source = source ∧ e.dest = dest

/-- Entries that know their slot ascend. -/
theorem pairwise_of_slots {β : Type} {xs : Array β} (slot : β → Nat)
    (h : ∀ i x, xs[i]? = some x → slot x = i) :
    xs.toList.Pairwise fun x y => slot x < slot y := by
  rw [List.pairwise_iff_getElem]
  intro i j hi hj hij
  rw [h i _ (by rw [← Array.getElem?_toList]; exact List.getElem?_eq_getElem hi),
    h j _ (by rw [← Array.getElem?_toList]; exact List.getElem?_eq_getElem hj)]
  exact hij

/-- Entries that know their slot are all different. -/
theorem nodup_of_slots {β : Type} {xs : Array β} (slot : β → Nat)
    (h : ∀ i x, xs[i]? = some x → slot x = i) : xs.toList.Nodup := by
  refine (pairwise_of_slots slot h).imp fun hlt heq => ?_
  rw [heq] at hlt
  exact lt_irrefl _ hlt

namespace Arranged

theorem congr {g k : Graph α} (hg : g.Arranged) (hv : k.vertices = g.vertices)
    (he : k.edges = g.edges) (hn : k.nextElement = g.nextElement) : k.Arranged := by
  refine ⟨?_, ?_, ?_, ?_, ?_, ?_⟩
  · rw [hv]; exact hg.vertexSlot
  · rw [he]; exact hg.edgeSlot
  · rw [hn, hv, he]; exact hg.nextElement
  · rw [elementNumbers, hv, he]; exact hg.elements
  · rw [hv, he]; exact hg.ends
  · simpa only [edgeBetween, vertex?, edge?, hv, he] using hg.joined

/-- An edge joins the pair that its own ends name. -/
theorem edgeBetween_of_edge? {g : Graph α} (hg : g.Arranged) {j : EdgeId} {e : Edge α}
    (he : g.edge? j = some e) : g.edgeBetween e.source e.dest = some j :=
  (hg.joined e.source e.dest j).mpr ⟨e, he, rfl, rfl⟩

theorem edge_id_eq {g : Graph α} (hg : g.Arranged) {j : EdgeId} {e : Edge α}
    (he : g.edge? j = some e) : e.id = j :=
  EdgeId.slot_inj.mp (hg.edgeSlot j.slot e he)

theorem vertex_id_eq {g : Graph α} (hg : g.Arranged) {v : VertexId} {x : Vertex α}
    (hx : g.vertex? v = some x) : x.id = v :=
  VertexId.slot_inj.mp (hg.vertexSlot v.slot x hx)

/-- An edge of the array is found under its own id. -/
theorem edge?_id {g : Graph α} (hg : g.Arranged) {e : Edge α} (he : e ∈ g.edges) :
    g.edge? e.id = some e := by
  obtain ⟨j, hj⟩ := Array.mem_iff_getElem?.mp he
  rw [edge?, hg.edgeSlot j e hj, hj]

theorem vertex?_id {g : Graph α} (hg : g.Arranged) {x : Vertex α} (hx : x ∈ g.vertices) :
    g.vertex? x.id = some x := by
  obtain ⟨i, hi⟩ := Array.mem_iff_getElem?.mp hx
  rw [vertex?, hg.vertexSlot i x hi, hi]

/-- No two edges join the same ordered pair. -/
theorem edge_unique {g : Graph α} (hg : g.Arranged) {e f : Edge α} (he : e ∈ g.edges)
    (hf : f ∈ g.edges) (hs : e.source = f.source) (hd : e.dest = f.dest) : e = f := by
  have h₁ := hg.edgeBetween_of_edge? (hg.edge?_id he)
  have h₂ := hg.edgeBetween_of_edge? (hg.edge?_id hf)
  rw [hs, hd, h₂] at h₁
  have hid : f.id = e.id := Option.some.inj h₁
  have hf' := hg.edge?_id hf
  rw [hid, hg.edge?_id he] at hf'
  exact Option.some.inj hf'

theorem nodup_edges {g : Graph α} (hg : g.Arranged) : g.edges.toList.Nodup :=
  nodup_of_slots (·.id.slot) hg.edgeSlot

theorem nodup_vertices {g : Graph α} (hg : g.Arranged) : g.vertices.toList.Nodup :=
  nodup_of_slots (·.id.slot) hg.vertexSlot

theorem nodup_ids {g : Graph α} (hg : g.Arranged) : (g.vertices.toList.map (·.id)).Nodup := by
  refine hg.nodup_vertices.map_on fun x hx y hy hxy => ?_
  have hx' := hg.vertex?_id (Array.mem_toList_iff.mp hx)
  have hy' := hg.vertex?_id (Array.mem_toList_iff.mp hy)
  rw [hxy, hy'] at hx'
  exact (Option.some.inj hx').symm

/-- The pairs that the edges join are all different. -/
theorem nodup_pairs {g : Graph α} (hg : g.Arranged) : (g.edges.toList.map (·.pair)).Nodup := by
  refine hg.nodup_edges.map_on fun e he f hf h => ?_
  obtain ⟨hs, hd⟩ := Prod.mk.inj h
  exact hg.edge_unique (Array.mem_toList_iff.mp he) (Array.mem_toList_iff.mp hf) hs hd

/-- A pair is joined if some edge of the array has it. -/
theorem isSome_edgeBetween_iff {g : Graph α} (hg : g.Arranged) (source dest : VertexId) :
    (g.edgeBetween source dest).isSome ↔ (source, dest) ∈ g.edges.toList.map (·.pair) := by
  rw [List.mem_map]
  constructor
  · intro h
    obtain ⟨j, hj⟩ := Option.isSome_iff_exists.mp h
    obtain ⟨e, he, rfl, rfl⟩ := (hg.joined source dest j).mp hj
    exact ⟨e, Array.mem_toList_iff.mpr (Array.mem_of_getElem? he), rfl⟩
  · rintro ⟨e, he, hpair⟩
    obtain ⟨rfl, rfl⟩ := Prod.mk.inj hpair
    rw [hg.edgeBetween_of_edge? (hg.edge?_id (Array.mem_toList_iff.mp he))]
    rfl

theorem of_layout {g k : Graph α} (hg : g.Arranged) (h : k.layout = g.layout) : k.Arranged := by
  have hvertices := size_vertices_of_layout h
  have hedges := size_edges_of_layout h
  refine ⟨?_, ?_, ?_, ?_, ?_, ?_⟩
  · intro i y hy
    obtain ⟨x, hx, hf⟩ := vertex_of_layout h hy
    rw [← ((x.frame_eq_iff y).mp hf).1]
    exact hg.vertexSlot i x hx
  · intro j f hf
    obtain ⟨e, he, hframe⟩ := edge_of_layout h hf
    rw [← ((e.frame_eq_iff f).mp hframe).1]
    exact hg.edgeSlot j e he
  · rw [hvertices, hedges, ← hg.nextElement]
    exact congrArg (fun l => l.nextElement.toNat) h
  · have hnumbers : k.elementNumbers = g.elementNumbers := by
      have := congrArg (fun l : Layout α => l.vertices.toList.map (·.element.number.toNat) ++
        l.edges.toList.map (·.element.number.toNat)) h
      simpa [layout, elementNumbers, Function.comp_def, Vertex.frame, Edge.frame] using this
    rw [hnumbers, hvertices, hedges]
    exact hg.elements
  · exact Anchored.of_layout hg.ends h
  · intro source dest j
    rw [edgeBetween_of_layout h, hg.joined]
    constructor
    · rintro ⟨e, he, hsource, hdest⟩
      obtain ⟨f, hf, hframe⟩ := edge_of_layout h.symm he
      obtain ⟨-, -, hs, hd⟩ := (f.frame_eq_iff e).mp hframe
      exact ⟨f, hf, hs.trans hsource, hd.trans hdest⟩
    · rintro ⟨f, hf, hsource, hdest⟩
      obtain ⟨e, he, hframe⟩ := edge_of_layout h hf
      obtain ⟨-, -, hs, hd⟩ := (e.frame_eq_iff f).mp hframe
      exact ⟨e, he, hs.trans hsource, hd.trans hdest⟩

end Arranged

/-! ## Adding a vertex or an edge -/

theorem Fits.of_le {g k : Graph α} (hk : k.Fits) (hv : g.vertices.size ≤ k.vertices.size)
    (he : g.edges.size ≤ k.edges.size) : g.Fits :=
  ⟨hv.trans hk.vertices, he.trans hk.edges⟩

theorem toNat_nextElement_succ {g : Graph α} (hg : g.Arranged) (hk : g.Fits) :
    (g.nextElement + 1).toNat = g.vertices.size + g.edges.size + 1 := by
  have hv := hk.vertices
  have he := hk.edges
  simp only [UInt32.size] at hv he
  have hlt : g.nextElement.toNat + (1 : UInt64).toNat < UInt64.size := by
    rw [hg.nextElement]
    simp only [UInt64.toNat_one, UInt64.size]
    omega
  rw [toNat_add_of_lt hlt, hg.nextElement]
  rfl

variable [Weight α]

/-- What fits after growth has fitted before. -/
theorem Growth.fits {g k : Graph α} (h : Growth g k) (hk : k.Fits) : g.Fits :=
  hk.of_le h.size_le.1 h.size_le.2

theorem Fits.of_pushVertex {g : Graph α} {state : VertexState} (h : (g.pushVertex state).Fits) :
    g.Fits := by
  refine h.of_le ?_ (Nat.le_refl _)
  rw [size_pushVertex]
  exact Nat.le_succ _

/-- The handle of the next vertex names the next slot. -/
theorem slot_nextVertex {g : Graph α} {state : VertexState} (h : (g.pushVertex state).Fits) :
    g.nextVertex.slot = g.vertices.size := by
  have hlt := h.vertices
  rw [size_pushVertex] at hlt
  exact VertexId.slot_ofSlot hlt

theorem size_pushEdge (g : Graph α) (source dest : VertexId) :
    (g.pushEdge source dest).edges.size = g.edges.size + 1 :=
  Array.size_push _

theorem slot_nextEdge {g : Graph α} {source dest : VertexId}
    (h : (g.pushEdge source dest).Fits) : g.nextEdge.slot = g.edges.size := by
  have hlt := h.edges
  rw [size_pushEdge] at hlt
  exact EdgeId.slot_ofSlot hlt

theorem Arranged.pushVertex {g : Graph α} (hg : g.Arranged) (state : VertexState)
    (hfit : (g.pushVertex state).Fits) : (g.pushVertex state).Arranged := by
  have hsize := g.size_pushVertex state
  refine ⟨?_, hg.edgeSlot, ?_, ?_, ?_, ?_⟩
  · intro i x hx
    rw [getElem?_pushVertex] at hx
    split at hx
    · next h =>
        cases hx
        rw [h]
        exact slot_nextVertex hfit
    · exact hg.vertexSlot i x hx
  · rw [hsize]
    show (g.nextElement + 1).toNat = g.vertices.size + 1 + g.edges.size
    rw [toNat_nextElement_succ hg hfit.of_pushVertex]
    omega
  · rw [hsize]
    show (g.pushVertex state).elementNumbers.Perm
      (List.range (g.vertices.size + 1 + g.edges.size))
    have hnumbers : (g.pushVertex state).elementNumbers =
        g.vertices.toList.map (·.element.number.toNat) ++
          ([g.nextElement.toNat] ++ g.edges.toList.map (·.element.number.toNat)) := by
      simp [elementNumbers, Graph.pushVertex, Vertex.fresh]
    -- the number of the new vertex stands in the middle and moves to the end
    rw [hnumbers, Nat.add_right_comm, List.range_succ, ← hg.nextElement]
    refine (List.perm_append_comm.append_left _).trans ?_
    rw [← List.append_assoc]
    exact (hg.nextElement ▸ hg.elements).append_right _
  · exact Anchored.of_size_le hg.ends rfl (hsize ▸ Nat.le_succ _)
  · intro source dest j
    rw [edgeBetween_pushVertex]
    exact hg.joined source dest j

theorem Arranged.pushEdge {g : Graph α} (hg : g.Arranged) {source dest : VertexId}
    (hs : source.slot < g.vertices.size) (hd : dest.slot < g.vertices.size)
    (hnew : g.edgeBetween source dest = none) (hfit : (g.pushEdge source dest).Fits) :
    (g.pushEdge source dest).Arranged := by
  have hvertices : (g.pushEdge source dest).vertices.size = g.vertices.size := by
    simp [Graph.pushEdge, updateVertex]
  have hedges := g.size_pushEdge source dest
  have hnext := slot_nextEdge hfit
  refine ⟨?_, ?_, ?_, ?_, ?_, ?_⟩
  · intro i x hx
    rw [vertices_pushEdge, updateVertex, Array.getElem?_modify] at hx
    split at hx
    · obtain ⟨y, hy, rfl⟩ := Option.map_eq_some_iff.mp hx
      exact hg.vertexSlot i y hy
    · exact hg.vertexSlot i x hx
  · intro j e he
    rw [getElem?_pushEdge] at he
    split at he
    · next h =>
        cases he
        rw [h]
        exact hnext
    · exact hg.edgeSlot j e he
  · rw [hvertices, hedges]
    exact toNat_nextElement_succ hg (hfit.of_le hvertices.ge (by omega))
  · have hnumbers : (g.pushEdge source dest).elementNumbers =
        g.elementNumbers ++ [g.nextElement.toNat] := by
      have hkeep : ∀ x : Vertex α, (x.addSuccessor dest g.nextEdge).element.number.toNat =
          x.element.number.toNat := fun _ => rfl
      have hlist := congrArg Array.toList
        (map_modify_of_keeps (·.element.number.toNat) g.vertices source.slot hkeep)
      simp only [Array.toList_map, Array.toList_modify] at hlist
      simp [elementNumbers, hlist, Graph.pushEdge, Edge.fresh, updateVertex]
    rw [hnumbers, hvertices, hedges, ← Nat.add_assoc, List.range_succ, ← hg.nextElement]
    exact (hg.nextElement ▸ hg.elements).append_right _
  · exact Anchored.pushEdge hg.ends hs hd
  · intro s d j
    rw [edgeBetween_pushEdge g dest hs, edge?, getElem?_pushEdge]
    by_cases hpair : s = source ∧ d = dest
    · obtain ⟨rfl, rfl⟩ := hpair
      rw [if_pos ⟨rfl, rfl⟩]
      constructor
      · rintro h
        cases h
        rw [if_pos hnext]
        exact ⟨_, rfl, rfl, rfl⟩
      · -- no earlier edge joins the pair, which was not joined before
        rintro ⟨e, he, hsource, hdest⟩
        split at he
        · next h => rw [EdgeId.slot_inj.mp (h.trans hnext.symm)]
        · have hjoined := (hg.joined s d j).mpr ⟨e, he, hsource, hdest⟩
          rw [hnew] at hjoined
          cases hjoined
    · rw [if_neg hpair, hg.joined]
      constructor
      · rintro ⟨e, he, hends⟩
        have hlt : j.slot < g.edges.size := (Array.getElem?_eq_some_iff.mp he).1
        rw [if_neg (Nat.ne_of_lt hlt)]
        exact ⟨e, he, hends⟩
      · rintro ⟨e, he, hsource, hdest⟩
        split at he
        · cases he
          exact absurd ⟨hsource.symm, hdest.symm⟩ hpair
        · exact ⟨e, he, hsource, hdest⟩

theorem Arranged.seed {g : Graph α} (hg : g.Arranged) (h : g.seeded = false)
    (hfit : g.seed.Fits) : g.seed.Arranged := by
  rw [seed_of_unseeded h] at hfit ⊢
  have h₃ : (((g.pushVertex .start).pushVertex .commit).pushVertex .abort).Fits :=
    ⟨hfit.vertices, hfit.edges⟩
  have h₂ := h₃.of_pushVertex
  have h₁ := h₂.of_pushVertex
  exact (((hg.pushVertex .start h₁).pushVertex .commit h₂).pushVertex .abort h₃).congr rfl rfl rfl

/-! ## Growth keeps the arrangement -/

/-- As long as every slot has a handle, growth keeps arrays, ids and tables in agreement. -/
theorem Growth.arranged {g k : Graph α} (h : Growth g k) :
    (g.Fits → g.Arranged) → k.Fits → k.Arranged := by
  -- only the last graph is known to fit, so the hypothesis on the first one is conditional
  induction h with
  | retain h =>
      intro hg hk
      exact (hg ((Growth.retain h).fits hk)).of_layout h
  | remember => exact fun hg hk => (hg ⟨hk.vertices, hk.edges⟩).congr rfl rfl rfl
  | markers h =>
      intro hg hk
      exact (hg ((Growth.markers h).fits hk)).seed h hk
  | query key _ _ _ =>
      intro hg hk
      have hpush : (Graph.pushVertex _ (.query key)).Fits := ⟨hk.vertices, hk.edges⟩
      exact ((hg hpush.of_pushVertex).pushVertex (.query key) hpush).congr rfl rfl rfl
  | edge source dest hs hd hnew =>
      intro hg hk
      exact (hg ((Growth.edge source dest hs hd hnew).fits hk)).pushEdge hs hd hnew hk
  | trans _ _ ih₁ ih₂ => exact fun hg => ih₂ (ih₁ hg)

omit [Weight α] in
theorem arranged_empty (p : Procedure) (s : ModelSettings α) : (Graph.empty p s).Arranged := by
  refine ⟨?_, ?_, rfl, List.Perm.refl _, ?_, ?_⟩
  all_goals simp [Graph.empty, edgeBetween, vertex?, edge?]

theorem arranged_of_reachable {p : Procedure} {s : ModelSettings α} {g : Graph α}
    (h : Reachable p s g) (hfit : g.Fits) : g.Arranged :=
  (growth_of_reachable h).arranged (fun _ => arranged_empty p s) hfit

end Graph

end PathForecast
