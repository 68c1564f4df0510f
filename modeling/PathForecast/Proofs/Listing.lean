import PathForecast.Proofs.Arrangement
import PathForecast.Snapshot

/-!
# What a snapshot lists

A snapshot lists the markers, the query vertices with hits and the edges between them, and leaves
gaps in the ids. Its look-ups agree with those of the graph all the same: halving finds what is
listed (`search_eq_some_iff`), and the first edge from one vertex to another is the one that the
table of the graph names. Main statement: `depicts_snapshot`, of every reachable graph.
-/

set_option autoImplicit false

namespace PathForecast

namespace Snapshot

/-! ## Searching by halving -/

section Search

variable {β : Type} {items : Array β} {key : β → Nat}

/-- The last item left is the only one that can have the key. -/
theorem filter_eq_some_iff {target low size : Nat} (hsize : size ≤ 1)
    (hwindow : ∀ i x, items[i]? = some x → key x = target → low ≤ i ∧ i < low + size) (x : β) :
    (items[low]?).filter (fun x => key x == target) = some x ↔
      x ∈ items ∧ key x = target := by
  rw [Option.filter_eq_some_iff, beq_iff_eq, Array.mem_iff_getElem?]
  refine and_congr_left fun hkey => ⟨fun hx => ⟨low, hx⟩, fun ⟨i, hi⟩ => ?_⟩
  obtain ⟨hle, hlt⟩ := hwindow i x hi hkey
  rwa [show low = i by omega]

variable (hkeys : ∀ (i j : Nat) (x y : β), items[i]? = some x → items[j]? = some y → i < j →
  key x < key y)

include hkeys

theorem lt_iff_key_lt {i j : Nat} {x y : β} (hx : items[i]? = some x) (hy : items[j]? = some y) :
    i < j ↔ key x < key y := by
  refine ⟨hkeys i j x y hx hy, fun hlt => ?_⟩
  by_contra hle
  rcases (not_lt.mp hle).eq_or_lt with rfl | hgt
  · rw [hx] at hy
    cases hy
    exact lt_irrefl _ hlt
  · exact lt_asymm hlt (hkeys j i y x hy hx hgt)

/-- If the items ascend by key and those with the key searched for lie in the window, the search
finds them. -/
theorem search_eq_some_iff (target : Nat) (x : β) :
    ∀ {fuel low size : Nat}, size ≤ fuel + 1 → low + size ≤ items.size →
      (∀ i x, items[i]? = some x → key x = target → low ≤ i ∧ i < low + size) →
      (search items key target fuel low size = some x ↔ x ∈ items ∧ key x = target)
  | 0, low, size, hfuel, _, hwindow => filter_eq_some_iff (by omega) hwindow x
  | fuel + 1, low, size, hfuel, hbound, hwindow => by
      rw [search]
      split
      · next hsize => exact filter_eq_some_iff hsize hwindow x
      · next hsize =>
          have hmiddle : low + size / 2 < items.size := by omega
          have hitem := Array.getElem?_eq_getElem hmiddle
          simp only [hitem]
          -- what has the key stands on the side of the middle that is searched on
          split
          · next hless =>
              refine search_eq_some_iff target x (by omega) (by omega) fun i y hy hkey => ?_
              have hwindow := hwindow i y hy hkey
              have hbefore := (lt_iff_key_lt hkeys hy hitem).mpr (hkey ▸ hless)
              omega
          · next hless =>
              refine search_eq_some_iff target x (by omega) (by omega) fun i y hy hkey => ?_
              have hwindow := hwindow i y hy hkey
              have hafter := mt (lt_iff_key_lt hkeys hy hitem).mp (hkey ▸ hless)
              omega

end Search

variable {α : Type}

/-- Halving finds a vertex if and only if it is listed. -/
theorem vertex?_eq_some_iff {s : Snapshot α} (hs : Ascending (s.vertices.map (·.id)))
    (v : VertexId) (y : SnapshotVertex α) :
    s.vertex? v = some y ↔ y ∈ s.vertices ∧ y.id = v := by
  have hpairwise := List.pairwise_iff_getElem.mp (List.pairwise_map.mp hs)
  refine (search_eq_some_iff ?_ _ y (Nat.le_succ _) (by omega) ?_).trans ?_
  · intro i j x y hx hy hij
    rw [List.getElem?_toArray] at hx hy
    obtain ⟨hi, rfl⟩ := List.getElem?_eq_some_iff.mp hx
    obtain ⟨hj, rfl⟩ := List.getElem?_eq_some_iff.mp hy
    exact hpairwise i j hi hj hij
  · intro i x hx _
    have hi := (Array.getElem?_eq_some_iff.mp hx).1
    omega
  · rw [List.mem_toArray, rank_eq_iff]

theorem edgeBetween_eq_some {s : Snapshot α} {source dest : VertexId} {f : SnapshotEdge α}
    (h : s.edgeBetween source dest = some f) :
    f ∈ s.edges ∧ f.source = source ∧ f.dest = dest := by
  have hends := List.find?_some h
  simp only [Bool.and_eq_true, decide_eq_true_eq] at hends
  exact ⟨List.mem_of_find?_eq_some h, hends⟩

end Snapshot

/-- Whoever is inserted into a set, or was in it before, is found there. -/
theorem contains_foldl_insert {β : Type} (key : β → Nat) (n : Nat) (l : List β) :
    ∀ t : Std.TreeSet Nat, (l.foldl (fun t b => t.insert (key b)) t).contains n = true ↔
      t.contains n = true ∨ ∃ b ∈ l, key b = n := by
  induction l with
  | nil => simp
  | cons b l ih =>
      intro t
      rw [List.foldl_cons, ih, Std.TreeSet.contains_insert]
      simp [or_assoc, or_left_comm]

/-! ## Shown vertices and edges -/

section Shows

variable {α : Type}

/-- What a snapshot tells of a vertex: who it is, its hits, the mean of its kept samples and its
forecast. -/
structure SnapshotVertex.Shows [Weight α] (y : SnapshotVertex α) (x : Vertex α) : Prop where
  id : y.id = x.id
  element : y.element = x.element
  kind : y.kind = x.state.kind
  statement : y.statement = x.state.statement?
  index : y.index = x.state.index
  partitions : y.partitions = x.state.partitions
  past : y.past = x.state.past
  totalHits : y.totalHits = x.hits.total
  windowHits : y.windowHits = x.hits.window
  averageRemaining : y.averageRemaining = x.timing.average
  forecast : y.forecast = x.forecast

/-- What a snapshot tells of an edge: its ends, its hits and its probability. -/
structure SnapshotEdge.Shows (f : SnapshotEdge α) (e : Edge α) : Prop where
  id : f.id = e.id
  element : f.element = e.element
  source : f.source = e.source
  dest : f.dest = e.dest
  totalHits : f.totalHits = e.hits.total
  windowHits : f.windowHits = e.hits.window
  probability : f.probability = e.probability

/-- Nothing else is kept of a vertex. -/
theorem SnapshotVertex.shows_iff [Weight α] {y : SnapshotVertex α} {x : Vertex α} :
    y.Shows x ↔ y = x.snapshot := by
  constructor
  · intro h
    cases y
    rw [Vertex.snapshot, SnapshotVertex.mk.injEq]
    exact ⟨h.id, h.element, h.kind, h.statement, h.index, h.partitions, h.past, h.totalHits,
      h.windowHits, h.averageRemaining, h.forecast⟩
  · rintro rfl
    constructor <;> rfl

theorem SnapshotEdge.shows_iff {f : SnapshotEdge α} {e : Edge α} :
    f.Shows e ↔ f = e.snapshot := by
  constructor
  · intro h
    cases f
    rw [Edge.snapshot, SnapshotEdge.mk.injEq]
    exact ⟨h.id, h.element, h.source, h.dest, h.totalHits, h.windowHits, h.probability⟩
  · rintro rfl
    constructor <;> rfl

end Shows

namespace Graph

variable {α : Type} {g : Graph α}

/-! ## Listed vertices and edges -/

/-- The graph has the vertex, and it is a marker or a query vertex with hits. -/
def Lists (g : Graph α) (v : VertexId) : Prop :=
  ∃ x, g.vertex? v = some x ∧ (x.state.isQuery = true → 0 < x.hits.total)

theorem isListed_iff (x : Vertex α) :
    isListed x = true ↔ (x.state.isQuery = true → 0 < x.hits.total) := by
  simp only [isListed, Bool.or_eq_true, Bool.not_eq_true', decide_eq_true_eq]
  by_cases hquery : x.state.isQuery = true
  · simpa [hquery] using HitCount.total_pos
  · simp [hquery]

theorem lists_iff (g : Graph α) (v : VertexId) :
    g.Lists v ↔ (g.vertex? v).any isListed = true := by
  simp only [Lists, Option.any_eq_true, isListed_iff]

instance (g : Graph α) (v : VertexId) : Decidable (g.Lists v) :=
  decidable_of_iff _ (g.lists_iff v).symm

theorem Arranged.ascending_ids (hg : g.Arranged) : Ascending (g.vertices.toList.map (·.id)) :=
  List.pairwise_map.mpr (pairwise_of_slots (fun x : Vertex α => x.id.slot) hg.vertexSlot)

variable [Weight α]

theorem mem_vertices_snapshot (g : Graph α) (y : SnapshotVertex α) :
    y ∈ g.snapshot.vertices ↔
      ∃ x ∈ g.vertices, (x.state.isQuery = true → 0 < x.hits.total) ∧ y.Shows x := by
  simp only [snapshot, List.mem_map, List.mem_filter, Array.mem_toList_iff, isListed_iff,
    and_assoc, SnapshotVertex.shows_iff, eq_comm (a := y)]

theorem ids_snapshot_sublist (g : Graph α) :
    (g.snapshot.vertices.map (·.id)).Sublist (g.vertices.toList.map (·.id)) := by
  rw [snapshot, List.map_map]
  exact List.filter_sublist.map _

def keptIds (g : Graph α) : Std.TreeSet Nat :=
  g.snapshot.vertices.foldl (fun t y => t.insert (rank y.id)) ∅

theorem edges_snapshot (g : Graph α) :
    g.snapshot.edges = (g.edges.toList.filter fun e =>
      g.keptIds.contains (rank e.source) && g.keptIds.contains (rank e.dest)).map (·.snapshot) :=
  rfl

namespace Arranged

/-- A vertex is in the snapshot under its id. -/
theorem exists_listed_iff (hg : g.Arranged) (v : VertexId) :
    (∃ y ∈ g.snapshot.vertices, y.id = v) ↔ g.Lists v := by
  constructor
  · rintro ⟨y, hy, rfl⟩
    obtain ⟨x, hx, hhits, hshows⟩ := (mem_vertices_snapshot g y).mp hy
    exact ⟨x, hshows.id ▸ hg.vertex?_id hx, hhits⟩
  · rintro ⟨x, hx, hhits⟩
    have hmem : x ∈ g.vertices := Array.mem_of_getElem? hx
    have hshows : x.snapshot.Shows x := SnapshotVertex.shows_iff.mpr rfl
    exact ⟨x.snapshot, (mem_vertices_snapshot g _).mpr ⟨x, hmem, hhits, hshows⟩,
      hg.vertex_id_eq hx⟩

theorem keptIds_iff (hg : g.Arranged) (v : VertexId) :
    g.keptIds.contains (rank v) = true ↔ g.Lists v := by
  rw [keptIds, contains_foldl_insert (fun y : SnapshotVertex α => rank y.id),
    ← hg.exists_listed_iff]
  simp [rank_eq_iff]

theorem mem_edges_snapshot (hg : g.Arranged) (f : SnapshotEdge α) :
    f ∈ g.snapshot.edges ↔
      ∃ e ∈ g.edges, g.Lists e.source ∧ g.Lists e.dest ∧ f.Shows e := by
  simp only [edges_snapshot, List.mem_map, List.mem_filter, Array.mem_toList_iff,
    Bool.and_eq_true, hg.keptIds_iff, and_assoc, SnapshotEdge.shows_iff, eq_comm (a := f)]

/-- An edge of a graph is found between its ends if both are listed. -/
theorem edgeBetween_snapshot (hg : g.Arranged) {e : Edge α} (he : e ∈ g.edges)
    (hs : g.Lists e.source) (hd : g.Lists e.dest) :
    ∃ f, g.snapshot.edgeBetween e.source e.dest = some f ∧ f.Shows e := by
  have hshown : e.snapshot.Shows e := SnapshotEdge.shows_iff.mpr rfl
  have hmem := (hg.mem_edges_snapshot e.snapshot).mpr ⟨e, he, hs, hd, hshown⟩
  cases hfind : g.snapshot.edgeBetween e.source e.dest with
  | none =>
      rw [Snapshot.edgeBetween, List.find?_eq_none] at hfind
      exact absurd (hfind _ hmem) (by simp [hshown.source, hshown.dest])
  | some f =>
      -- no other edge has the same ends
      obtain ⟨hf, hsource, hdest⟩ := Snapshot.edgeBetween_eq_some hfind
      obtain ⟨e', he', -, -, hshows⟩ := (hg.mem_edges_snapshot f).mp hf
      obtain rfl := hg.edge_unique he' he (hshows.source.symm.trans hsource)
        (hshows.dest.symm.trans hdest)
      exact ⟨f, rfl, hshows⟩

end Arranged

end Graph

/-! ## Snapshots of reachable graphs -/

/-- What a snapshot shows of the graph that it was taken of. -/
structure Snapshot.Depicts {α : Type} [Weight α] (s : Snapshot α) (g : Graph α) : Prop where
  procedure : s.procedure = g.procedure.id ∧ s.procedureName = g.procedure.name
  counts : s.transactionCount = g.transactionCount ∧ s.recomputeCount = g.recomputeCount
  /-- The markers and the query vertices with hits, as they are now, by ascending id. -/
  vertices : ∀ y, y ∈ s.vertices ↔
    ∃ x ∈ g.vertices, (x.state.isQuery = true → 0 < x.hits.total) ∧ y.Shows x
  verticesAscend : Ascending (s.vertices.map (·.id))
  /-- The edges between listed vertices, as they are now, by ascending id. -/
  edges : ∀ f, f ∈ s.edges ↔
    ∃ e ∈ g.edges, g.Lists e.source ∧ g.Lists e.dest ∧ f.Shows e
  edgesAscend : s.edges.Pairwise fun e f => e.id.slot < f.id.slot
  /-- Halving finds a vertex if and only if it is listed. -/
  found : ∀ v y, s.vertex? v = some y ↔ y ∈ s.vertices ∧ y.id = v
  listed : ∀ v, (s.vertex? v).isSome = true ↔ g.Lists v
  /-- No edge dangles. -/
  ends : ∀ f ∈ s.edges, (s.vertex? f.source).isSome = true ∧ (s.vertex? f.dest).isSome = true
  /-- Between listed vertices there is the edge of the graph, and else there is none. -/
  joined : ∀ source dest j, g.Lists source → g.Lists dest →
    g.edgeBetween source dest = some j →
      ∃ e f, g.edge? j = some e ∧ s.edgeBetween source dest = some f ∧ f.Shows e
  apart : ∀ source dest,
    (¬g.Lists source ∨ ¬g.Lists dest ∨ g.edgeBetween source dest = none) →
      s.edgeBetween source dest = none

namespace Graph

variable {α : Type} [Weight α] {g : Graph α}

theorem Arranged.isSome_vertex?_snapshot (hg : g.Arranged) (v : VertexId) :
    (g.snapshot.vertex? v).isSome = true ↔ g.Lists v := by
  have hascend := hg.ascending_ids.sublist (ids_snapshot_sublist g)
  rw [Option.isSome_iff_exists, ← hg.exists_listed_iff]
  exact exists_congr fun y => Snapshot.vertex?_eq_some_iff hascend v y

theorem Arranged.depicts (hg : g.Arranged) : g.snapshot.Depicts g where
  procedure := ⟨rfl, rfl⟩
  counts := ⟨rfl, rfl⟩
  vertices := mem_vertices_snapshot g
  verticesAscend := hg.ascending_ids.sublist (ids_snapshot_sublist g)
  edges := hg.mem_edges_snapshot
  edgesAscend := by
    rw [snapshot, List.pairwise_map]
    exact (pairwise_of_slots (fun e : Edge α => e.id.slot) hg.edgeSlot).filter _
  found := Snapshot.vertex?_eq_some_iff (hg.ascending_ids.sublist (ids_snapshot_sublist g))
  listed := hg.isSome_vertex?_snapshot
  ends f hf := by
    obtain ⟨e, -, hs, hd, hshows⟩ := (hg.mem_edges_snapshot f).mp hf
    rw [hshows.source, hshows.dest]
    exact ⟨(hg.isSome_vertex?_snapshot _).mpr hs, (hg.isSome_vertex?_snapshot _).mpr hd⟩
  joined source dest j hs hd hj := by
    obtain ⟨e, he, rfl, rfl⟩ := (hg.joined source dest j).mp hj
    obtain ⟨f, hf, hshows⟩ := hg.edgeBetween_snapshot (Array.mem_of_getElem? he) hs hd
    exact ⟨e, f, he, hf, hshows⟩
  apart source dest hapart := by
    by_contra hfound
    obtain ⟨f, hf⟩ := Option.ne_none_iff_exists'.mp hfound
    obtain ⟨hmem, hsource, hdest⟩ := Snapshot.edgeBetween_eq_some hf
    obtain ⟨e, he, hs, hd, hshows⟩ := (hg.mem_edges_snapshot f).mp hmem
    obtain rfl := hshows.source.symm.trans hsource
    obtain rfl := hshows.dest.symm.trans hdest
    have hjoined : g.edgeBetween e.source e.dest = some e.id :=
      hg.edgeBetween_of_edge? (hg.edge?_id he)
    rcases hapart with hnot | hnot | hnone
    · exact hnot hs
    · exact hnot hd
    · rw [hjoined] at hnone
      cases hnone

/-- A snapshot of a reachable graph lists what it should, and its look-ups find what they should. -/
theorem depicts_snapshot {p : Procedure} {s : ModelSettings α} (h : Reachable p s g)
    (hfit : g.Fits) : g.snapshot.Depicts g :=
  (arranged_of_reachable h hfit).depicts

/-- A graph that has lost the hits of its first query vertex and has met a second one twice since,
before a recompute and after it. -/
def thinned : Graph Rat :=
  (Graph.empty ⟨⟨1⟩, "transfer", [⟨⟨10⟩, "get"⟩, ⟨⟨11⟩, "put"⟩]⟩ .standard).performAll
    [.seed, .learn ⟨⟨1⟩, ⟨1⟩, 0, 9, false, some ⟨4⟩, [⟨⟨10⟩, 1, 2, none⟩]⟩ .recorded,
      .resetCounters,
      .learn ⟨⟨2⟩, ⟨1⟩, 10, 19, false, some ⟨4⟩, [⟨⟨11⟩, 11, 12, none⟩]⟩ .recorded, .recompute,
      .learn ⟨⟨3⟩, ⟨1⟩, 20, 29, false, some ⟨4⟩, [⟨⟨11⟩, 21, 22, none⟩]⟩ .recorded]

theorem depicts_snapshot_thinned :
    thinned.snapshot.vertex? ⟨3⟩ = none ∧ thinned.edgeBetween ⟨0⟩ ⟨3⟩ = some ⟨0⟩ ∧
      thinned.snapshot.edgeBetween ⟨0⟩ ⟨3⟩ = none ∧
      (∃ y, thinned.snapshot.vertex? ⟨4⟩ = some y ∧ y.statement = some ⟨11⟩ ∧ y.totalHits = 2 ∧
        y.windowHits = 1 ∧ y.averageRemaining = some 8 ∧ y.forecast.singlePartition = 1) ∧
      ∃ f, thinned.snapshot.edgeBetween ⟨0⟩ ⟨4⟩ = some f ∧ f.totalHits = 2 ∧ f.windowHits = 1 ∧
        f.probability = 1 := by
  have hreach : Reachable ⟨⟨1⟩, "transfer", [⟨⟨10⟩, "get"⟩, ⟨⟨11⟩, "put"⟩]⟩ .standard thinned :=
    Reachable.empty.performAll _
  have hdepicts := depicts_snapshot hreach ⟨by decide +kernel, by decide +kernel⟩
  have hpair : thinned.edgeBetween ⟨0⟩ ⟨4⟩ = some ⟨2⟩ := by decide +kernel
  have hvertex : ∀ x ∈ thinned.vertices, x.id = ⟨4⟩ → x.state.statement? = some ⟨11⟩ ∧
      x.hits.total = 2 ∧ x.hits.window = 1 ∧ x.timing.average = some (8 : Rat) ∧
      x.forecast.singlePartition = 1 := by decide +kernel
  have hedge : (thinned.edge? ⟨2⟩).all fun e =>
      decide (e.hits.total = 2 ∧ e.hits.window = 1 ∧ e.probability = 1) := by decide +kernel
  refine ⟨?_, by decide +kernel, hdepicts.apart _ _ (.inr (.inl (by decide +kernel))), ?_, ?_⟩
  · rw [← Option.not_isSome_iff_eq_none, hdepicts.listed]
    decide +kernel
  · obtain ⟨y, hy⟩ := Option.isSome_iff_exists.mp
      ((hdepicts.listed ⟨4⟩).mpr (by decide +kernel))
    obtain ⟨hmem, hid⟩ := (hdepicts.found _ _).mp hy
    obtain ⟨x, hx, -, hshows⟩ := (hdepicts.vertices y).mp hmem
    obtain ⟨hstatement, htotal, hwindow, haverage, hforecast⟩ :=
      hvertex x hx (hshows.id.symm.trans hid)
    exact ⟨y, hy, hshows.statement.trans hstatement, hshows.totalHits.trans htotal,
      hshows.windowHits.trans hwindow, hshows.averageRemaining.trans haverage,
      hshows.forecast ▸ hforecast⟩
  · obtain ⟨e, f, he, hf, hshows⟩ :=
      hdepicts.joined ⟨0⟩ ⟨4⟩ ⟨2⟩ (by decide +kernel) (by decide +kernel) hpair
    rw [he, Option.all_some, decide_eq_true_eq] at hedge
    exact ⟨f, hf, hshows.totalHits.trans hedge.1, hshows.windowHits.trans hedge.2.1,
      hshows.probability.trans hedge.2.2⟩

end Graph

end PathForecast
