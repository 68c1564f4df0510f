import PathForecast.Proofs.Arrangement

/-!
# Hits by vertex and by pair

The hits of a graph as total maps: `vertexHits` gives every handle and `edgeHits` every ordered
pair a count, zero where there is no such vertex or edge. Creating elements then does not show, and
a `Trail` of moves records one hit for every visit and for every leg of its path. What else a vertex
shows is read in the same way (`readAt`). Main statement: `trail_followAll`, following the visits of
a trace is such a trail.
-/

set_option autoImplicit false

namespace PathForecast

/-! ## Legs -/

/-- The pairs of vertices that follow each other on a path. -/
def legs (path : List VertexId) : List (VertexId × VertexId) := path.zip path.tail

@[simp] theorem legs_singleton (v : VertexId) : legs [v] = [] := rfl

@[simp] theorem legs_cons_cons (v w : VertexId) (path : List VertexId) :
    legs (v :: w :: path) = (v, w) :: legs (w :: path) := rfl

theorem mem_of_mem_legs {path : List VertexId} {l : VertexId × VertexId} (h : l ∈ legs path) :
    l.1 ∈ path ∧ l.2 ∈ path :=
  ⟨(List.of_mem_zip h).1, List.mem_of_mem_tail (List.of_mem_zip h).2⟩

theorem legs_append_subset : ∀ before after : List VertexId, legs after ⊆ legs (before ++ after)
  | [], _ => List.Subset.refl _
  | [_], [] => List.nil_subset _
  | [_], _ :: _ => List.subset_cons_self _ _
  | _ :: v :: before, after =>
      List.Subset.trans (legs_append_subset (v :: before) after) (List.subset_cons_self _ _)

theorem legs_concat (w : VertexId) :
    ∀ (path : List VertexId) (v : VertexId),
      legs (v :: path ++ [w]) = legs (v :: path) ++ [(path.getLastD v, w)]
  | [], _ => rfl
  | u :: path, v => by
      rw [List.cons_append, List.cons_append, legs_cons_cons, ← List.cons_append,
        legs_concat w path, legs_cons_cons, List.getLastD_cons, List.cons_append]

theorem nodup_legs : ∀ {path : List VertexId}, path.Nodup → (legs path).Nodup
  | [], _ => List.nodup_nil
  | [_], _ => List.nodup_nil
  | v :: w :: path, h => by
      obtain ⟨hv, hrest⟩ := List.nodup_cons.mp h
      refine List.nodup_cons.mpr ⟨fun hmem => hv (mem_of_mem_legs hmem).1, ?_⟩
      exact nodup_legs hrest

namespace Graph

variable {α : Type}

/-- What a vertex shows in a view, or `absent` if there is no such vertex. -/
def readAt {γ : Type} (view : Vertex α → γ) (absent : γ) (g : Graph α) (v : VertexId) : γ :=
  ((g.vertex? v).map view).getD absent

def vertexHits (g : Graph α) (v : VertexId) : HitCount :=
  ((g.vertex? v).map (·.hits)).getD .zero

def edgeHits (g : Graph α) (source dest : VertexId) : HitCount :=
  (((g.edgeBetween source dest).bind g.edge?).map (·.hits)).getD .zero

/-! ## Updates -/

theorem readAt_eq {γ : Type} (view : Vertex α → γ) {absent : γ} {g : Graph α} {v : VertexId}
    {x : Vertex α} (hx : g.vertex? v = some x) : readAt view absent g v = view x := by
  rw [readAt, hx, Option.map_some, Option.getD_some]

theorem readAt_updateVertex {γ : Type} (view : Vertex α → γ) (t : γ → γ) {absent : γ}
    (g : Graph α) {v : VertexId} (w : VertexId) {f : Vertex α → Vertex α}
    (hf : ∀ x, view (f x) = t (view x)) (hv : v.slot < g.vertices.size) :
    readAt view absent (g.updateVertex v f) w =
      if v = w then t (readAt view absent g w) else readAt view absent g w := by
  unfold readAt
  rw [vertex?_updateVertex]
  by_cases h : v = w
  · subst h
    obtain ⟨x, hx⟩ := Option.isSome_iff_exists.mp ((g.isSome_vertex?_iff v).mpr hv)
    simp [hx, hf]
  · rw [if_neg h, if_neg h]

/-- What is done to every vertex is done to what it shows. -/
theorem readAt_map {γ : Type} (view : Vertex α → γ) (t : γ → γ) {absent : γ} {g k : Graph α}
    {f : Vertex α → Vertex α} (hvertices : k.vertices = g.vertices.map f)
    (hf : ∀ x, view (f x) = t (view x)) (habsent : t absent = absent) (v : VertexId) :
    readAt view absent k v = t (readAt view absent g v) := by
  unfold readAt vertex?
  rw [hvertices, Array.getElem?_map]
  cases g.vertices[v.slot]? with
  | none => exact habsent.symm
  | some x => exact hf x

theorem vertexHits_updateVertex (g : Graph α) {v : VertexId} (w : VertexId)
    {f : Vertex α → Vertex α} {t : HitCount → HitCount} (hf : ∀ x, (f x).hits = t x.hits)
    (hv : v.slot < g.vertices.size) :
    (g.updateVertex v f).vertexHits w = if v = w then t (g.vertexHits w) else g.vertexHits w :=
  readAt_updateVertex (·.hits) t g w hf hv

theorem edgeHits_updateVertex (g : Graph α) (v source dest : VertexId) {f : Vertex α → Vertex α}
    (hf : ∀ x, (f x).frame = x.frame) :
    (g.updateVertex v f).edgeHits source dest = g.edgeHits source dest := by
  unfold edgeHits
  rw [edgeBetween_of_layout (layout_updateVertex g v hf)]
  rfl

theorem edgeHits_updateEdge {g : Graph α} (hg : g.Arranged) {source dest : VertexId} {j : EdgeId}
    (hj : g.edgeBetween source dest = some j) (s d : VertexId) {f : Edge α → Edge α}
    {t : HitCount → HitCount} (hf : ∀ x, (f x).hits = t x.hits)
    (hframe : ∀ x, (f x).frame = x.frame) :
    (g.updateEdge j f).edgeHits s d =
      if source = s ∧ dest = d then t (g.edgeHits s d) else g.edgeHits s d := by
  unfold edgeHits
  rw [edgeBetween_of_layout (layout_updateEdge g j hframe)]
  by_cases hpair : source = s ∧ dest = d
  · obtain ⟨rfl, rfl⟩ := hpair
    obtain ⟨e, he, _⟩ := (hg.joined source dest j).mp hj
    rw [if_pos ⟨rfl, rfl⟩, hj]
    simp [edge?_updateEdge, he, hf]
  · rw [if_neg hpair]
    cases hsd : g.edgeBetween s d with
    | none => rfl
    | some i =>
        -- one edge has one pair of ends
        have hij : j ≠ i := by
          rintro rfl
          obtain ⟨e, he, hs, hd⟩ := (hg.joined source dest j).mp hj
          obtain ⟨e', he', hs', hd'⟩ := (hg.joined s d j).mp hsd
          rw [he] at he'
          cases he'
          exact hpair ⟨hs.symm.trans hs', hd.symm.trans hd'⟩
        simp [edge?_updateEdge, hij]

variable [Weight α]

/-! ## Creation -/

section Readings

variable {γ : Type} (view : Vertex α → γ) {absent : γ}

theorem readAt_pushVertex (hfresh : ∀ id element state, view (.fresh id element state) = absent)
    (g : Graph α) (state : VertexState) (v : VertexId) :
    readAt view absent (g.pushVertex state) v = readAt view absent g v := by
  unfold readAt vertex?
  rw [getElem?_pushVertex]
  split
  · next h =>
      rw [h, Array.getElem?_size]
      exact hfresh _ _ _
  · rfl

theorem readAt_pushEdge (hview : ∀ x dest e, view (x.addSuccessor dest e) = view x)
    (g : Graph α) (source dest v : VertexId) :
    readAt view absent (g.pushEdge source dest) v = readAt view absent g v := by
  unfold readAt
  rw [vertex?_pushEdge]
  split
  · rw [Option.map_map]
    exact congrArg (fun view => ((g.vertex? v).map view).getD absent) (funext fun x => hview x _ _)
  · rfl

/-- A step along an edge changes what its destination shows. -/
theorem readAt_traverseEdge (t : γ → γ)
    (hview : ∀ x dest e, view (x.addSuccessor dest e) = view x) {g : Graph α} {sample : SampleKey}
    {source dest : VertexId} {remaining : UInt64}
    (hstep : ∀ x, view (x.recordHit.recordElapsed sample remaining) = t (view x))
    (hs : source.slot < g.vertices.size) (hd : dest.slot < g.vertices.size) (v : VertexId) :
    readAt view absent (g.traverseEdge sample source dest remaining) v =
      if dest = v then t (readAt view absent g v) else readAt view absent g v := by
  have hsize := (growth_ensureEdge hs hd).size_le.1
  have hensure : readAt view absent (g.ensureEdge source dest).1 v = readAt view absent g v :=
    ensureEdge_keeps (readAt view absent · v) fun _ => readAt_pushEdge view hview g source dest v
  rw [← hensure]
  exact readAt_updateVertex view t _ v hstep (hd.trans_le hsize)

end Readings

theorem vertexHits_pushVertex (g : Graph α) (state : VertexState) (v : VertexId) :
    (g.pushVertex state).vertexHits v = g.vertexHits v :=
  readAt_pushVertex (·.hits) (fun _ _ _ => rfl) g state v

theorem edgeHits_pushVertex (g : Graph α) (state : VertexState) (source dest : VertexId) :
    (g.pushVertex state).edgeHits source dest = g.edgeHits source dest := by
  unfold edgeHits
  rw [edgeBetween_pushVertex]
  rfl

theorem edgeHits_pushEdge {g : Graph α} (hg : g.Arranged) {source dest : VertexId}
    (hs : source.slot < g.vertices.size) (hnew : g.edgeBetween source dest = none)
    (hfit : (g.pushEdge source dest).Fits) (s d : VertexId) :
    (g.pushEdge source dest).edgeHits s d = g.edgeHits s d := by
  have hnext := slot_nextEdge hfit
  unfold edgeHits
  rw [edgeBetween_pushEdge g dest hs]
  by_cases hpair : s = source ∧ d = dest
  · -- an edge without hits counts like no edge
    obtain ⟨rfl, rfl⟩ := hpair
    rw [if_pos ⟨rfl, rfl⟩, hnew, Option.bind_some, edge?, getElem?_pushEdge,
      if_pos hnext]
    rfl
  · rw [if_neg hpair]
    cases hsd : g.edgeBetween s d with
    | none => rfl
    | some j =>
        obtain ⟨e, he, _⟩ := (hg.joined s d j).mp hsd
        have hj : j.slot < g.edges.size := (Array.getElem?_eq_some_iff.mp he).1
        rw [Option.bind_some, Option.bind_some, edge?, getElem?_pushEdge,
          if_neg (Nat.ne_of_lt hj), edge?]

theorem vertexHits_ensureVertex (g : Graph α) (key : VertexKey) (v : VertexId) :
    (g.ensureVertex key).1.vertexHits v = g.vertexHits v :=
  ensureVertex_keeps (·.vertexHits v) (g.vertexHits_pushVertex (.query key) v)

theorem edgeHits_ensureVertex (g : Graph α) (key : VertexKey) (source dest : VertexId) :
    (g.ensureVertex key).1.edgeHits source dest = g.edgeHits source dest :=
  ensureVertex_keeps (·.edgeHits source dest) (g.edgeHits_pushVertex (.query key) source dest)

theorem edgeBetween_ensureVertex (g : Graph α) (key : VertexKey) (source dest : VertexId) :
    (g.ensureVertex key).1.edgeBetween source dest = g.edgeBetween source dest :=
  ensureVertex_keeps (·.edgeBetween source dest)
    (g.edgeBetween_pushVertex (.query key) source dest)

theorem edgeHits_ensureEdge {g : Graph α} (hg : g.Arranged) {source dest : VertexId}
    (hs : source.slot < g.vertices.size) (hfit : (g.ensureEdge source dest).1.Fits)
    (s d : VertexId) : (g.ensureEdge source dest).1.edgeHits s d = g.edgeHits s d := by
  cases h : g.edgeBetween source dest with
  | some e => rw [ensureEdge_of_some h]
  | none =>
      rw [ensureEdge_of_none h] at hfit ⊢
      exact edgeHits_pushEdge hg hs h hfit s d

theorem edgeBetween_ensureEdge (g : Graph α) {source : VertexId} (dest : VertexId)
    (hs : source.slot < g.vertices.size) (s d : VertexId) :
    (g.ensureEdge source dest).1.edgeBetween s d =
      if s = source ∧ d = dest then some (g.ensureEdge source dest).2
      else g.edgeBetween s d := by
  cases h : g.edgeBetween source dest with
  | some e =>
      rw [ensureEdge_of_some h]
      split
      · next hpair => rw [hpair.1, hpair.2, h]
      · rfl
  | none =>
      rw [ensureEdge_of_none h]
      exact edgeBetween_pushEdge g dest hs s d

theorem transactions_ensureVertex (g : Graph α) (key : VertexKey) :
    (g.ensureVertex key).1.transactionCount = g.transactionCount ∧
      (g.ensureVertex key).1.transactionsAtRecompute = g.transactionsAtRecompute :=
  ⟨ensureVertex_keeps (·.transactionCount) rfl, ensureVertex_keeps (·.transactionsAtRecompute) rfl⟩

theorem transactions_ensureEdge (g : Graph α) (source dest : VertexId) :
    (g.ensureEdge source dest).1.transactionCount = g.transactionCount ∧
      (g.ensureEdge source dest).1.transactionsAtRecompute = g.transactionsAtRecompute :=
  ⟨ensureEdge_keeps (·.transactionCount) fun _ => rfl,
    ensureEdge_keeps (·.transactionsAtRecompute) fun _ => rfl⟩

/-! ## One move -/

section Move

variable {g : Graph α} (hg : g.Arranged) (sample : SampleKey) {source dest : VertexId}
  (remaining : UInt64) (hs : source.slot < g.vertices.size) (hd : dest.slot < g.vertices.size)
  (hfit : (g.traverseEdge sample source dest remaining).Fits)

include hs hd in
theorem vertexHits_traverseEdge (v : VertexId) :
    (g.traverseEdge sample source dest remaining).vertexHits v =
      if dest = v then (g.vertexHits v).record else g.vertexHits v :=
  readAt_traverseEdge (·.hits) .record (fun _ _ _ => rfl) (fun _ => rfl) hs hd v

include hs in
theorem edgeBetween_traverseEdge (s d : VertexId) :
    (g.traverseEdge sample source dest remaining).edgeBetween s d =
      if s = source ∧ d = dest then some (g.ensureEdge source dest).2
      else g.edgeBetween s d := by
  rw [← edgeBetween_ensureEdge g dest hs]
  refine edgeBetween_of_layout ((layout_updateEdge _ _ fun e => e.frame_recordHit).trans ?_) s d
  exact layout_updateVertex _ _ fun _ => rfl

include hg hs hd hfit in
theorem edgeHits_traverseEdge (s d : VertexId) :
    (g.traverseEdge sample source dest remaining).edgeHits s d =
      if source = s ∧ dest = d then (g.edgeHits s d).record else g.edgeHits s d := by
  have hgrow := growth_ensureEdge hs hd
  have hkeep : ∀ x : Vertex α, (x.recordHit.recordElapsed sample remaining).frame = x.frame :=
    fun _ => rfl
  have hensured : (g.ensureEdge source dest).1.Fits :=
    ⟨by simpa [traverseEdge, updateEdge, updateVertex] using hfit.vertices,
      by simpa [traverseEdge, updateEdge, updateVertex] using hfit.edges⟩
  -- recording the visit keeps the layout, so the edge is still where it was
  have hmoved : ((g.ensureEdge source dest).1.updateVertex dest fun v =>
      v.recordHit.recordElapsed sample remaining).Arranged :=
    (hgrow.arranged (fun _ => hg) hensured).of_layout (layout_updateVertex _ dest hkeep)
  have hjoined : ((g.ensureEdge source dest).1.updateVertex dest fun v =>
      v.recordHit.recordElapsed sample remaining).edgeBetween source dest =
        some (g.ensureEdge source dest).2 := by
    rw [edgeBetween_of_layout (layout_updateVertex _ dest hkeep),
      edgeBetween_ensureEdge g dest hs, if_pos ⟨rfl, rfl⟩]
  rw [← edgeHits_ensureEdge hg hs hensured s d,
    ← edgeHits_updateVertex (g.ensureEdge source dest).1 dest s d hkeep]
  exact edgeHits_updateEdge hmoved hjoined s d (fun _ => rfl) fun e => e.frame_recordHit

end Move

/-- A step of a learned transaction from one vertex to another. -/
structure Move (g k : Graph α) (source dest : VertexId) : Prop where
  growth : Growth g k
  vertexHits : ∀ v, k.vertexHits v =
    if dest = v then (g.vertexHits v).record else g.vertexHits v
  edgeHits : ∀ s d, k.edgeHits s d =
    if source = s ∧ dest = d then (g.edgeHits s d).record else g.edgeHits s d
  /-- At most the pair of the step is newly joined. -/
  joined : ∀ s d, (k.edgeBetween s d).isSome ↔
    (g.edgeBetween s d).isSome ∨ (s, d) = (source, dest)
  transactionCount : k.transactionCount = g.transactionCount
  transactionsAtRecompute : k.transactionsAtRecompute = g.transactionsAtRecompute

theorem move_traverseEdge {g : Graph α} (hg : g.Arranged) (sample : SampleKey)
    {source dest : VertexId} (remaining : UInt64) (hs : source.slot < g.vertices.size)
    (hd : dest.slot < g.vertices.size)
    (hfit : (g.traverseEdge sample source dest remaining).Fits) :
    Move g (g.traverseEdge sample source dest remaining) source dest := by
  refine ⟨growth_traverseEdge sample remaining hs hd,
    vertexHits_traverseEdge sample remaining hs hd,
    edgeHits_traverseEdge hg sample remaining hs hd hfit, fun s d => ?_, ?_, ?_⟩
  · rw [edgeBetween_traverseEdge sample remaining hs, Prod.mk.injEq]
    split
    · next h => simpa using Or.inr h
    · next h => exact (or_iff_left h).symm
  · exact (transactions_ensureEdge g source dest).1
  · exact (transactions_ensureEdge g source dest).2

theorem move_follow {g : Graph α} (hg : g.Arranged) (sample : SampleKey) {previous : VertexId}
    {visit : Visit} {visits : List Visit} (h : g.Ready previous (visit :: visits))
    (hfit : (g.follow sample previous visit).1.Fits) :
    Move g (g.follow sample previous visit).1 previous (g.follow sample previous visit).2 := by
  have hensure := h.growth_ensureVertex
  have hprevious : previous.slot < (g.ensureVertex visit.key).1.vertices.size :=
    h.slot_lt.trans_le hensure.size_le.1
  have hensured : (g.ensureVertex visit.key).1.Arranged :=
    hensure.arranged (fun _ => hg) ((h.growth_move sample).fits hfit)
  have hmove := move_traverseEdge hensured sample visit.remaining hprevious
    (g.slot_ensureVertex_lt visit.key) hfit
  refine ⟨h.growth_follow sample, fun v => ?_, fun s d => ?_, fun s d => ?_,
    hmove.transactionCount.trans (transactions_ensureVertex g visit.key).1,
    hmove.transactionsAtRecompute.trans (transactions_ensureVertex g visit.key).2⟩
  · rw [← vertexHits_ensureVertex g visit.key v]
    exact hmove.vertexHits v
  · rw [← edgeHits_ensureVertex g visit.key s d]
    exact hmove.edgeHits s d
  · rw [← edgeBetween_ensureVertex g visit.key s d]
    exact hmove.joined s d

/-! ## Trails -/

/-- A sequence of steps along a path, from one graph to another. -/
inductive Trail : Graph α → List VertexId → Graph α → Prop
  | stay (g : Graph α) (v : VertexId) : Trail g [v] g
  | move {g k l : Graph α} {v w : VertexId} {path : List VertexId} :
      Move g k v w → Trail k (w :: path) l → Trail g (v :: w :: path) l

theorem count_cons_iterate {β : Type} [BEq β] [LawfulBEq β] (a b : β) [Decidable (a = b)]
    (l : List β) (h : HitCount) :
    HitCount.record^[(a :: l).count b] h =
      HitCount.record^[l.count b] (if a = b then h.record else h) := by
  rw [List.count_cons]
  by_cases hab : a = b
  · subst hab
    rw [if_pos (by simp), if_pos rfl, Function.iterate_add_apply, Function.iterate_one]
  · rw [if_neg (by simpa using hab), if_neg hab, Nat.add_zero]

namespace Trail

variable {g k l : Graph α} {v : VertexId} {path : List VertexId}

theorem growth (h : Trail g path k) : Growth g k := by
  induction h with
  | stay g v => exact .refl g
  | move hmove _ ih => exact hmove.growth.trans ih

/-- A trail records one hit for every visit after the first vertex. -/
theorem vertexHits (h : Trail g path k) (w : VertexId) :
    k.vertexHits w = HitCount.record^[path.tail.count w] (g.vertexHits w) := by
  induction h with
  | stay g v => rfl
  | move hmove _ ih => rw [ih, List.tail_cons, List.tail_cons, count_cons_iterate, hmove.vertexHits]

/-- A trail records one hit for every leg. -/
theorem edgeHits (h : Trail g path k) (s d : VertexId) :
    k.edgeHits s d = HitCount.record^[(legs path).count (s, d)] (g.edgeHits s d) := by
  induction h with
  | stay g v => rfl
  | move hmove _ ih =>
      rw [ih, legs_cons_cons, count_cons_iterate, hmove.edgeHits]
      simp only [Prod.mk.injEq]

/-- A trail joins its own legs and nothing else. -/
theorem joined (h : Trail g path k) (s d : VertexId) :
    (k.edgeBetween s d).isSome ↔ (g.edgeBetween s d).isSome ∨ (s, d) ∈ legs path := by
  induction h with
  | stay g v => simp
  | move hmove _ ih => rw [ih, hmove.joined, legs_cons_cons, List.mem_cons, or_assoc]

theorem transactions (h : Trail g path k) :
    k.transactionCount = g.transactionCount ∧
      k.transactionsAtRecompute = g.transactionsAtRecompute := by
  induction h with
  | stay g v => exact ⟨rfl, rfl⟩
  | move hmove _ ih =>
      exact ⟨ih.1.trans hmove.transactionCount, ih.2.trans hmove.transactionsAtRecompute⟩

theorem concat (h : Trail g (v :: path) k) {d w : VertexId}
    (hmove : Move k l ((v :: path).getLastD d) w) : Trail g (v :: path ++ [w]) l := by
  induction path generalizing g v with
  | nil =>
      cases h
      exact .move hmove (.stay l w)
  | cons u path ih =>
      cases h with
      | move hfirst hrest => exact .move hfirst (ih hrest hmove)

end Trail

theorem trail_followAll (sample : SampleKey) (visits : List Visit) :
    ∀ {g : Graph α} {previous : VertexId}, g.Arranged → g.Ready previous visits →
      (g.followAll sample previous visits).1.Fits →
      Trail g (previous :: (g.followAll sample previous visits).2)
        (g.followAll sample previous visits).1 := by
  induction visits with
  | nil => exact fun _ _ _ => .stay _ _
  | cons visit visits ih =>
      intro g previous hg h hfit
      rw [followAll_cons] at hfit ⊢
      have hrest := (growth_followAll sample visits (h.follow sample)).1
      have hfitFollow : (g.follow sample previous visit).1.Fits := hrest.fits hfit
      have harranged := (h.growth_follow sample).arranged (fun _ => hg) hfitFollow
      exact .move (move_follow hg sample h hfitFollow) (ih harranged (h.follow sample) hfit)

/-! ## Probabilities -/

/-- Every edge satisfies a condition on its source and its probability. -/
def Weighs (g : Graph α) (P : VertexId → α → Prop) : Prop :=
  ∀ e ∈ g.edges, P e.source e.probability

namespace Weighs

variable {g : Graph α} {P : VertexId → α → Prop} (hzero : ∀ v, P v 0)

include hzero

/-- An old edge keeps its probability and a new one has none. -/
theorem traverseEdge (h : g.Weighs P) (sample : SampleKey) (source dest : VertexId)
    (remaining : UInt64) : (g.traverseEdge sample source dest remaining).Weighs P := by
  have hensure : (g.ensureEdge source dest).1.Weighs P := by
    cases hjoined : g.edgeBetween source dest with
    | some e =>
        rw [ensureEdge_of_some hjoined]
        exact h
    | none =>
        rw [ensureEdge_of_none hjoined]
        intro e he
        rcases Array.mem_push.mp he with he | rfl
        · exact h e he
        · exact hzero _
  intro e he
  obtain ⟨j, hj⟩ := Array.mem_iff_getElem?.mp he
  have hmodified : ((g.ensureEdge source dest).1.edges.modify (g.ensureEdge source dest).2.slot
      (·.recordHit))[j]? = some e := hj
  rw [Array.getElem?_modify] at hmodified
  split at hmodified
  · obtain ⟨f, hf, rfl⟩ := Option.map_eq_some_iff.mp hmodified
    exact hensure f (Array.mem_of_getElem? hf)
  · exact hensure e (Array.mem_of_getElem? hmodified)

theorem follow (h : g.Weighs P) (sample : SampleKey) (previous : VertexId) (visit : Visit) :
    (g.follow sample previous visit).1.Weighs P := by
  have hedges : (g.ensureVertex visit.key).1.edges = g.edges := ensureVertex_keeps (·.edges) rfl
  have hensure : (g.ensureVertex visit.key).1.Weighs P := by
    unfold Weighs
    rw [hedges]
    exact h
  exact hensure.traverseEdge hzero sample previous _ visit.remaining

theorem walk (h : g.Weighs P) (t : TransactionTrace) (visits : List Visit) :
    (g.walk t visits).1.Weighs P := by
  refine walk_induction (motive := (·.Weighs P)) ?enter ?follow ?leave ?count h
  case enter => exact fun h => h
  case follow => exact fun previous visit _ h => h.follow hzero _ previous visit
  case leave => exact fun previous h => h.traverseEdge hzero _ previous _ 0
  case count => exact fun h => h

end Weighs

end Graph

end PathForecast
