import PathForecast.Proofs.Arrangement

/-!
# Audit of the structure

An audit reports structural faults first: a double id, a parallel edge, a missing end. In a graph
whose bookkeepings agree there are none to report. Main statement: `reachable_arrangement`.
-/

set_option autoImplicit false

namespace PathForecast

/-! ## Repeated numbers -/

theorem mem_insert_nat (seen : Std.TreeSet Nat) (x y : Nat) :
    y ∈ seen.insert x ↔ x = y ∨ y ∈ seen := by
  rw [Std.TreeSet.mem_insert, Nat.compare_eq_eq]

theorem firstRepeat_eq_none_iff (xs : List Nat) (seen : Std.TreeSet Nat) :
    firstRepeat seen xs = none ↔ xs.Nodup ∧ ∀ x ∈ xs, x ∉ seen := by
  induction xs generalizing seen with
  | nil => simp [firstRepeat]
  | cons x xs ih =>
      rw [firstRepeat]
      by_cases hx : x ∈ seen
      · simp [hx]
      · rw [if_neg (by simpa using hx), ih, List.nodup_cons]
        constructor
        · rintro ⟨hnodup, hfresh⟩
          refine ⟨⟨fun hmem => hfresh x hmem (by simp), hnodup⟩, fun y hy => ?_⟩
          rcases List.mem_cons.mp hy with rfl | hy
          · exact hx
          · exact fun hseen => hfresh y hy (by simp [hseen])
        · rintro ⟨⟨hnot, hnodup⟩, hfresh⟩
          refine ⟨hnodup, fun y hy hins => ?_⟩
          rcases (mem_insert_nat seen x y).mp hins with rfl | hseen
          · exact hnot hy
          · exact hfresh y (List.mem_cons_of_mem _ hy) hseen

variable {α : Type}

theorem Graph.pairNumber_inj {e f : Edge α} (h : Graph.pairNumber e = Graph.pairNumber f) :
    e.source = f.source ∧ e.dest = f.dest := by
  have hd : e.dest.slot < UInt32.size := e.dest.number.toNat_lt
  have hd' : f.dest.slot < UInt32.size := f.dest.number.toNat_lt
  unfold Graph.pairNumber at h
  have hslot : e.source.slot = f.source.slot := by
    have hdiv := congrArg (· / UInt32.size) h
    simpa [Nat.mul_comm _ UInt32.size, Nat.mul_add_div, Nat.div_eq_of_lt hd,
      Nat.div_eq_of_lt hd'] using hdiv
  rw [hslot] at h
  exact ⟨VertexId.slot_inj.mp hslot, VertexId.slot_inj.mp (Nat.add_left_cancel h)⟩

/-! ## Structural faults -/

/-- A fault of ids, pairs or ends, whatever the hits are. -/
def Violation.IsStructural : Violation α → Prop
  | .duplicateElement _ => True
  | .parallelEdge _ _ => True
  | .danglingEdge _ => True
  | _ => False

namespace Graph

theorem lineage_not_structural {g : Graph α} {e : Edge α} {source dest : VertexState}
    {v : Violation α} (h : edgeViolation.lineage g e source dest = some v) :
    ¬v.IsStructural := by
  unfold edgeViolation.lineage at h
  split at h
  · split at h
    · split at h
      · cases h
      · cases h
        exact id
    · cases h
  · cases h

theorem succession_not_structural {e : Edge α} {source dest : VertexState} {v : Violation α}
    (h : edgeViolation.succession e source dest = some v) : ¬v.IsStructural := by
  unfold edgeViolation.succession at h
  split at h
  · cases h
    exact id
  · cases h

theorem edgeViolation_not_structural {g : Graph α} {e : Edge α} {v : Violation α}
    (hs : (g.vertex? e.source).isSome) (hd : (g.vertex? e.dest).isSome)
    (h : g.edgeViolation e = some v) : ¬v.IsStructural := by
  obtain ⟨x, hx⟩ := Option.isSome_iff_exists.mp hs
  obtain ⟨y, hy⟩ := Option.isSome_iff_exists.mp hd
  unfold edgeViolation at h
  simp only [hx, hy] at h
  split at h
  · cases h
    exact id
  · split at h
    · next hlineage =>
        cases h
        exact lineage_not_structural hlineage
    · exact succession_not_structural h

theorem firstEdgeViolation_not_structural {g : Graph α} {v : Violation α} :
    ∀ {es : List (Edge α)} {seen : Std.TreeSet Nat},
      (es.map pairNumber).Nodup → (∀ e ∈ es, pairNumber e ∉ seen) →
      (∀ e ∈ es, (g.vertex? e.source).isSome ∧ (g.vertex? e.dest).isSome) →
      g.firstEdgeViolation seen es = some v → ¬v.IsStructural
  | [], _, _, _, _, h => by cases h
  | e :: es, seen, hnodup, hfresh, hends, h => by
      -- the pair is new, so the edge is judged by its ends
      obtain ⟨hnot, hnodup⟩ := List.nodup_cons.mp (List.map_cons ▸ hnodup)
      have he := hends e List.mem_cons_self
      rw [firstEdgeViolation, if_neg (by simpa using hfresh e List.mem_cons_self)] at h
      split at h
      · next hv =>
          cases h
          exact edgeViolation_not_structural he.1 he.2 hv
      · refine firstEdgeViolation_not_structural hnodup (fun f hf hins => ?_)
          (fun f hf => hends f (List.mem_cons_of_mem _ hf)) h
        rcases (mem_insert_nat seen _ _).mp hins with hpair | hseen
        · exact hnot (List.mem_map.mpr ⟨f, hf, hpair.symm⟩)
        · exact hfresh f (List.mem_cons_of_mem _ hf) hseen

/-- The pairs of the edge array are all different. -/
theorem Arranged.nodup_pairNumbers {g : Graph α} (hg : g.Arranged) :
    (g.edges.toList.map pairNumber).Nodup := by
  refine hg.nodup_edges.map_on fun e he f hf h => ?_
  obtain ⟨hs, hd⟩ := pairNumber_inj h
  exact hg.edge_unique (Array.mem_toList_iff.mp he) (Array.mem_toList_iff.mp hf) hs hd

variable [Weight α]

theorem outboundViolation_not_structural {t : EdgeTotals α} {x : Vertex α} {epsilon : α}
    {v : Violation α} (h : t.outboundViolation x epsilon = some v) : ¬v.IsStructural := by
  unfold EdgeTotals.outboundViolation at h
  split at h
  · cases h
  · split at h
    · cases h
      exact id
    · split at h
      · cases h
        exact id
      · cases h

theorem inboundViolation_not_structural {t : EdgeTotals α} {x : Vertex α} {epsilon : α}
    {v : Violation α} (h : t.inboundViolation x epsilon = some v) : ¬v.IsStructural := by
  unfold EdgeTotals.inboundViolation at h
  split at h
  · cases h
    exact id
  · cases h

/-- An audit of a graph whose bookkeepings agree finds no structural fault. -/
theorem Arranged.violation_not_structural {g : Graph α} (hg : g.Arranged) {v : Violation α}
    (h : g.violation? = some v) : ¬v.IsStructural := by
  unfold violation? at h
  have hrepeat : firstRepeat ∅ g.elementNumbers = none :=
    (firstRepeat_eq_none_iff _ _).mpr ⟨hg.elements.nodup_iff.mpr List.nodup_range, by simp⟩
  simp only [hrepeat] at h
  split at h
  · next hedge =>
      cases h
      refine firstEdgeViolation_not_structural hg.nodup_pairNumbers (by simp) (fun e he => ?_) hedge
      obtain ⟨j, hj⟩ := Array.mem_iff_getElem?.mp (Array.mem_toList_iff.mp he)
      have hends := hg.ends j e hj
      exact ⟨(g.isSome_vertex?_iff _).mpr hends.1, (g.isSome_vertex?_iff _).mpr hends.2⟩
  · split at h
    · next hout =>
        cases h
        obtain ⟨_, _, hx⟩ := List.exists_of_findSome?_eq_some hout
        exact outboundViolation_not_structural hx
    · obtain ⟨_, _, hx⟩ := List.exists_of_findSome?_eq_some h
      exact inboundViolation_not_structural hx

/-- In a reachable graph whose handles have not run out, every vertex and every edge has the handle
of its slot, the element ids are the first numbers, the successor tables list exactly the edges, and
an audit finds no structural fault. -/
theorem reachable_arrangement {p : Procedure} {s : ModelSettings α} {g : Graph α}
    (h : Reachable p s g) (hv : g.vertices.size < UInt32.size) (he : g.edges.size < UInt32.size) :
    (∀ (i : Nat) (x : Vertex α), g.vertices[i]? = some x → x.id.slot = i) ∧
      (∀ (j : Nat) (e : Edge α), g.edges[j]? = some e → e.id.slot = j) ∧
      g.elementNumbers.Perm (List.range (g.vertices.size + g.edges.size)) ∧
      (∀ e ∈ g.edges, e.source.slot < g.vertices.size ∧ e.dest.slot < g.vertices.size) ∧
      (∀ x ∈ g.vertices, ∀ dest j, x.successors.get? dest = some j ↔
        ∃ e ∈ g.edges, e.id = j ∧ e.source = x.id ∧ e.dest = dest) ∧
      (∀ e ∈ g.edges, ∀ f ∈ g.edges, e.source = f.source → e.dest = f.dest → e = f) ∧
      (∀ source dest j, g.edgeBetween source dest = some j ↔
        ∃ e ∈ g.edges, e.id = j ∧ e.source = source ∧ e.dest = dest) ∧
      ∀ v, g.validate = .error v →
        (∀ x, v ≠ .duplicateElement x) ∧ (∀ a b, v ≠ .parallelEdge a b) ∧
          ∀ e, v ≠ .danglingEdge e := by
  have hg : g.Arranged := arranged_of_reachable h ⟨hv.le, he.le⟩
  have hjoined : ∀ source dest j, g.edgeBetween source dest = some j ↔
      ∃ e ∈ g.edges, e.id = j ∧ e.source = source ∧ e.dest = dest := by
    intro source dest j
    rw [hg.joined]
    constructor
    · rintro ⟨e, he, hends⟩
      exact ⟨e, Array.mem_of_getElem? he, hg.edge_id_eq he, hends⟩
    · rintro ⟨e, he, rfl, hends⟩
      exact ⟨e, hg.edge?_id he, hends⟩
  refine ⟨hg.vertexSlot, hg.edgeSlot, hg.elements, fun e he => ?_, fun x hx dest j => ?_,
    fun e he f hf => hg.edge_unique he hf, hjoined, fun v hv => ?_⟩
  · obtain ⟨j, hj⟩ := Array.mem_iff_getElem?.mp he
    exact hg.ends j e hj
  · rw [← hjoined, edgeBetween, hg.vertex?_id hx]
    rfl
  · have hnot : ¬v.IsStructural := by
      unfold validate at hv
      split at hv
      · next hviolation =>
          cases hv
          exact hg.violation_not_structural hviolation
      · cases hv
    refine ⟨?_, ?_, ?_⟩
    all_goals
      intros
      rintro rfl
      exact hnot trivial

/-- A graph with a loop, an edge out of a terminal marker and a learned transaction. -/
def looped : Graph Rat :=
  (Graph.empty ⟨⟨1⟩, "transfer", [⟨⟨10⟩, "get"⟩]⟩ .standard).performAll
    [.seed, .addEdge ⟨0⟩ ⟨0⟩, .addEdge ⟨1⟩ ⟨0⟩,
      .learn ⟨⟨1⟩, ⟨1⟩, 0, 9, false, some ⟨4⟩, [⟨⟨10⟩, 1, 2, none⟩]⟩ .recorded,
      .addEdge ⟨1⟩ ⟨0⟩, .hitEdge ⟨1⟩, .recompute, .addEdge ⟨2⟩ ⟨9⟩]

theorem reachable_arrangement_looped :
    looped.vertices.size < UInt32.size ∧ looped.edges.size < UInt32.size ∧
      looped.elementNumbers.Perm (List.range 8) ∧ looped.edgeBetween ⟨1⟩ ⟨0⟩ = some ⟨1⟩ := by
  have hreach : Reachable ⟨⟨1⟩, "transfer", [⟨⟨10⟩, "get"⟩]⟩ .standard looped :=
    Reachable.empty.performAll _
  have hv : looped.vertices.size = 4 := by decide +kernel
  have he : looped.edges.size = 4 := by decide +kernel
  obtain ⟨-, -, helements, -, -, -, hjoined, -⟩ :=
    reachable_arrangement hreach (by rw [hv]; decide) (by rw [he]; decide)
  rw [hv, he] at helements
  refine ⟨by rw [hv]; decide, by rw [he]; decide, helements, (hjoined _ _ _).mpr ?_⟩
  decide +kernel

end Graph

end PathForecast
