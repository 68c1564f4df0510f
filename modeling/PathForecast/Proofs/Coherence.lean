import Mathlib
import PathForecast.Proofs.Accounting
import PathForecast.Proofs.Identity

/-!
# Coherent graphs

A graph can be told without handles: by the identities of its vertices and the pairs of identities
that its edges join. In a coherent graph no identity and no pair comes twice, so a graph whose
identities and pairs are all known beforehand is known to have room for its handles. Main
statements: `nodup_places`, `nodup_links`, and `fits_ensureVertex` and `fits_traverseEdge`, what is
new finds a handle.
-/

set_option autoImplicit false

namespace PathForecast

def VertexState.ending (aborted : Bool) : VertexState := if aborted then .abort else .commit

namespace Graph

variable {α : Type}

/-! ## What a graph holds -/

/-- The identity of a vertex; a handle without a vertex counts as a start marker. -/
def spot (g : Graph α) (v : VertexId) : VertexState := (g.place? v).getD .start

theorem spot_eq {g : Graph α} {v : VertexId} {s : VertexState} (h : g.place? v = some s) :
    g.spot v = s := by
  rw [spot, h, Option.getD_some]

def places (g : Graph α) : List VertexState := g.vertices.toList.map fun x => g.spot x.id

def links (g : Graph α) : List (VertexState × VertexState) :=
  g.edges.toList.map fun e => (g.spot e.source, g.spot e.dest)

theorem exists_place? {g : Graph α} {v : VertexId} (hv : v.slot < g.vertices.size) :
    ∃ s, g.place? v = some s := by
  obtain ⟨s, hs⟩ := Option.isSome_iff_exists.mp ((g.isSome_state?_iff v).mpr hv)
  exact ⟨_, place?_eq hs⟩

theorem place?_spot {g : Graph α} {v : VertexId} (hv : v.slot < g.vertices.size) :
    g.place? v = some (g.spot v) := by
  obtain ⟨s, hs⟩ := exists_place? hv
  rw [hs, spot_eq hs]

/-- A seeded graph whose bookkeepings agree and whose identities are apart. -/
structure Coherent (g : Graph α) : Prop where
  seeded : g.seeded = true
  marked : g.Marked
  arranged : g.Arranged
  catalogued : g.Catalogued

theorem place?_terminal {g : Graph α} (hg : g.Coherent) (aborted : Bool) :
    g.place? (terminal aborted) = some (.ending aborted) := by
  cases aborted with
  | false => exact place?_eq (hg.marked.commit hg.seeded)
  | true => exact place?_eq (hg.marked.abort hg.seeded)

namespace Coherent

variable {g : Graph α} (hg : g.Coherent)

include hg

theorem place?_id {x : Vertex α} (hx : x ∈ g.vertices) : g.place? x.id = some (g.spot x.id) :=
  place?_spot (slot_lt_of_vertex? (hg.arranged.vertex?_id hx))

theorem place?_ends {e : Edge α} (he : e ∈ g.edges) :
    g.place? e.source = some (g.spot e.source) ∧ g.place? e.dest = some (g.spot e.dest) := by
  obtain ⟨j, hj⟩ := Array.mem_iff_getElem?.mp he
  obtain ⟨hs, hd⟩ := hg.arranged.ends j e hj
  exact ⟨place?_spot hs, place?_spot hd⟩

theorem mem_places_iff (s : VertexState) : s ∈ g.places ↔ ∃ v, g.place? v = some s := by
  rw [places, List.mem_map]
  constructor
  · rintro ⟨x, hx, rfl⟩
    exact ⟨x.id, hg.place?_id (Array.mem_toList_iff.mp hx)⟩
  · rintro ⟨v, hv⟩
    obtain ⟨x, hx⟩ := Option.isSome_iff_exists.mp
      ((g.isSome_vertex?_iff v).mpr (slot_lt_of_place? hv))
    refine ⟨x, Array.mem_toList_iff.mpr (Array.mem_of_getElem? hx), ?_⟩
    rw [VertexId.slot_inj.mp (hg.arranged.vertexSlot _ x hx), spot_eq hv]

theorem mem_links_iff (s d : VertexState) :
    (s, d) ∈ g.links ↔ ∃ v w, g.place? v = some s ∧ g.place? w = some d ∧
      (g.edgeBetween v w).isSome := by
  rw [links, List.mem_map]
  constructor
  · rintro ⟨e, he, hpair⟩
    obtain ⟨rfl, rfl⟩ := Prod.mk.inj hpair
    obtain ⟨hs, hd⟩ := hg.place?_ends (Array.mem_toList_iff.mp he)
    refine ⟨e.source, e.dest, hs, hd, ?_⟩
    exact (hg.arranged.isSome_edgeBetween_iff _ _).mpr (List.mem_map.mpr ⟨e, he, rfl⟩)
  · rintro ⟨v, w, hv, hw, hjoined⟩
    obtain ⟨e, he, hpair⟩ := List.mem_map.mp ((hg.arranged.isSome_edgeBetween_iff v w).mp hjoined)
    obtain ⟨rfl, rfl⟩ := Prod.mk.inj hpair
    exact ⟨e, he, by rw [spot_eq hv, spot_eq hw]⟩

/-- No identity is that of two vertices. -/
theorem nodup_places : g.places.Nodup := by
  refine hg.arranged.nodup_vertices.map_on fun x hx y hy h => ?_
  have hx' := Array.mem_toList_iff.mp hx
  have hy' := Array.mem_toList_iff.mp hy
  have hid := hg.catalogued.single _ _ _ (hg.place?_id hx') (h ▸ hg.place?_id hy')
  have hvertex := hg.arranged.vertex?_id hx'
  rw [hid, hg.arranged.vertex?_id hy'] at hvertex
  exact (Option.some.inj hvertex).symm

/-- No pair of identities is joined by two edges. -/
theorem nodup_links : g.links.Nodup := by
  refine hg.arranged.nodup_edges.map_on fun e he f hf h => ?_
  have he' := Array.mem_toList_iff.mp he
  have hf' := Array.mem_toList_iff.mp hf
  obtain ⟨hs, hd⟩ := Prod.mk.inj h
  obtain ⟨hes, hed⟩ := hg.place?_ends he'
  obtain ⟨hfs, hfd⟩ := hg.place?_ends hf'
  exact hg.arranged.edge_unique he' hf' (hg.catalogued.single _ _ _ hes (hs ▸ hfs))
    (hg.catalogued.single _ _ _ hed (hd ▸ hfd))

theorem places_of_joined {v w : VertexId} (h : (g.edgeBetween v w).isSome) :
    (∃ s, g.place? v = some s) ∧ ∃ d, g.place? w = some d := by
  obtain ⟨e, he, hpair⟩ := List.mem_map.mp ((hg.arranged.isSome_edgeBetween_iff v w).mp h)
  obtain ⟨rfl, rfl⟩ := Prod.mk.inj hpair
  obtain ⟨hs, hd⟩ := hg.place?_ends (Array.mem_toList_iff.mp he)
  exact ⟨⟨_, hs⟩, ⟨_, hd⟩⟩

end Coherent

variable [Weight α]

theorem Growth.coherent {g k : Graph α} (h : Growth g k) (hg : g.Coherent) (hk : k.Fits) :
    k.Coherent where
  seeded := h.seeded_of_seeded hg.seeded
  marked := h.marked hg.marked
  arranged := h.arranged (fun _ => hg.arranged) hk
  catalogued := h.catalogued hg.marked (fun _ => hg.catalogued) hk

theorem coherent_fresh (p : Procedure) (s : ModelSettings α) : (Graph.fresh p s).Coherent where
  seeded := rfl
  marked := marked_seed (marked_empty p s) rfl
  arranged := (arranged_empty p s).seed rfl (fits_fresh p s)
  catalogued := catalogued_seed (marked_empty p s) rfl

theorem Coherent.of_layout {g k : Graph α} (hg : g.Coherent) (h : k.layout = g.layout) :
    k.Coherent where
  seeded := (Growth.retain h).seeded_of_seeded hg.seeded
  marked := (Growth.retain h).marked hg.marked
  arranged := hg.arranged.of_layout h
  catalogued := hg.catalogued.of_layout h

theorem Growth.links_eq {g k : Graph α} (h : Growth g k) (hg : g.Coherent)
    (hedges : k.edges = g.edges) : k.links = g.links := by
  rw [links, hedges]
  refine List.map_congr_left fun e he => ?_
  obtain ⟨hs, hd⟩ := hg.place?_ends (Array.mem_toList_iff.mp he)
  rw [spot_eq (h.place? hs), spot_eq (h.place? hd)]

/-! ## Room for what is new -/

theorem length_le_dedup {β : Type} [DecidableEq β] {l all : List β} (hl : l.Nodup)
    (hsub : l ⊆ all) : l.length ≤ all.dedup.length :=
  (hl.subperm fun _ hb => List.mem_dedup.mpr (hsub hb)).length_le

namespace Coherent

variable {g : Graph α} (hg : g.Coherent) (hfit : g.Fits)

include hg hfit

/-- A new vertex has a handle if there is room for all identities. -/
theorem fits_ensureVertex {all : List VertexState} (hall : g.places ⊆ all) {key : VertexKey}
    (hkey : .query (key.identity g.settings.usePastPartitions) ∈ all)
    (hroom : all.dedup.length ≤ UInt32.size) : (g.ensureVertex key).1.Fits := by
  cases hfind : g.findKey key with
  | some v =>
      rw [ensureVertex_of_some hfind]
      exact hfit
  | none =>
      rw [ensureVertex_of_none hfind]
      have hnew : VertexState.query (key.identity g.settings.usePastPartitions) ∉ g.places := by
        intro hmem
        obtain ⟨v, hv⟩ := (hg.mem_places_iff _).mp hmem
        exact hg.catalogued.ne_of_findKey hfind v hv
      have hlength := length_le_dedup (List.nodup_cons.mpr ⟨hnew, hg.nodup_places⟩)
        (List.cons_subset.mpr ⟨hkey, hall⟩)
      refine ⟨?_, hfit.edges⟩
      show (g.pushVertex (.query key)).vertices.size ≤ _
      rw [size_pushVertex]
      rw [List.length_cons, places, List.length_map, Array.length_toList] at hlength
      exact hlength.trans hroom

/-- A new edge has a handle if there is room for all pairs. -/
theorem fits_ensureEdge {all : List (VertexState × VertexState)} (hall : g.links ⊆ all)
    {source dest : VertexId} {s d : VertexState} (hs : g.place? source = some s)
    (hd : g.place? dest = some d) (hpair : (s, d) ∈ all)
    (hroom : all.dedup.length ≤ UInt32.size) : (g.ensureEdge source dest).1.Fits := by
  cases hjoined : g.edgeBetween source dest with
  | some e =>
      rw [ensureEdge_of_some hjoined]
      exact hfit
  | none =>
      rw [ensureEdge_of_none hjoined]
      have hnew : (s, d) ∉ g.links := by
        intro hmem
        obtain ⟨v, w, hv, hw, hvw⟩ := (hg.mem_links_iff s d).mp hmem
        rw [hg.catalogued.single _ _ _ hv hs, hg.catalogued.single _ _ _ hw hd, hjoined] at hvw
        cases hvw
      have hlength := length_le_dedup (List.nodup_cons.mpr ⟨hnew, hg.nodup_links⟩)
        (List.cons_subset.mpr ⟨hpair, hall⟩)
      refine ⟨?_, ?_⟩
      · show (g.vertices.modify _ _).size ≤ _
        rw [Array.size_modify]
        exact hfit.vertices
      · rw [size_pushEdge]
        rw [List.length_cons, links, List.length_map, Array.length_toList] at hlength
        exact hlength.trans hroom

theorem fits_traverseEdge (sample : SampleKey) {all : List (VertexState × VertexState)}
    (hall : g.links ⊆ all) {source dest : VertexId} {s d : VertexState}
    (hs : g.place? source = some s) (hd : g.place? dest = some d) (hpair : (s, d) ∈ all)
    (hroom : all.dedup.length ≤ UInt32.size) (remaining : UInt64) :
    (g.traverseEdge sample source dest remaining).Fits := by
  have hensure := hg.fits_ensureEdge hfit hall hs hd hpair hroom
  have hlayout : (g.traverseEdge sample source dest remaining).layout =
      (g.ensureEdge source dest).1.layout :=
    (layout_updateEdge _ _ fun e => e.frame_recordHit).trans (layout_updateVertex _ _ fun _ => rfl)
  exact hensure.of_le (size_vertices_of_layout hlayout).le (size_edges_of_layout hlayout).le

end Coherent

end Graph

end PathForecast
