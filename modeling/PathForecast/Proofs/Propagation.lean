import PathForecast.Graph.Forecasting
import PathForecast.Proofs.Arrangement
import PathForecast.Proofs.Traversal

/-!
# Propagation

The forecasts of a graph satisfy one equation per vertex: the forecast of a vertex is computed from
those of the destinations that the traversal closed before it (`ClosedBefore`), and an outbound
edge to any other destination is left out. Main statements: `forecastAt_eq`, the equation, and
`closedBefore_or_reaches`, an edge that is left out closes a directed cycle.
-/

set_option autoImplicit false

namespace PathForecast

open Traversal

namespace Graph

variable {α : Type}

/-- The edges that leave a vertex, in the order of the edge array. -/
def edgesFrom (g : Graph α) (v : VertexId) : List (Edge α) :=
  g.edges.toList.filter fun e => e.source = v

def Joined (g : Graph α) (v w : VertexId) : Prop := (g.edgeBetween v w).isSome = true

def Reaches (g : Graph α) : VertexId → VertexId → Prop := Relation.ReflTransGen g.Joined

theorem mem_edgesFrom {g : Graph α} {v : VertexId} {e : Edge α} :
    e ∈ g.edgesFrom v ↔ e ∈ g.edges ∧ e.source = v := by
  simp [edgesFrom]

theorem Arranged.joined_of_mem {g : Graph α} (hg : g.Arranged) {v : VertexId} {e : Edge α}
    (he : e ∈ g.edgesFrom v) : g.Joined v e.dest := by
  obtain ⟨hmem, rfl⟩ := mem_edgesFrom.mp he
  rw [Joined, hg.edgeBetween_of_edge? (hg.edge?_id hmem)]
  rfl

theorem Arranged.mem_dests_iff {g : Graph α} (hg : g.Arranged) {v w : VertexId} :
    w ∈ (g.edgesFrom v).map (·.dest) ↔ g.Joined v w := by
  rw [List.mem_map]
  constructor
  · rintro ⟨e, he, rfl⟩
    exact hg.joined_of_mem he
  · intro h
    obtain ⟨e, he, hpair⟩ := List.mem_map.mp ((hg.isSome_edgeBetween_iff v w).mp h)
    obtain ⟨rfl, rfl⟩ := Prod.mk.inj hpair
    exact ⟨e, mem_edgesFrom.mpr ⟨Array.mem_toList_iff.mp he, rfl⟩, rfl⟩

theorem Arranged.nodup_dests {g : Graph α} (hg : g.Arranged) (v : VertexId) :
    ((g.edgesFrom v).map (·.dest)).Nodup := by
  refine (hg.nodup_edges.filter _).map_on fun e he f hf hdest => ?_
  obtain ⟨he, hsource⟩ := mem_edgesFrom.mp he
  obtain ⟨hf, hsource'⟩ := mem_edgesFrom.mp hf
  exact hg.edge_unique he hf (hsource.trans hsource'.symm) hdest

theorem Arranged.exists_slot {g : Graph α} (hg : g.Arranged) {i : Nat}
    (hi : i < g.vertices.size) : ∃ v : VertexId, v.slot = i :=
  ⟨g.vertices[i].id, hg.vertexSlot i _ (Array.getElem?_eq_getElem hi)⟩

/-! ## Adjacency -/

theorem getElem?_foldr_modify {β : Type} (n : Nat) (slot : Edge α → Nat) (entry : Edge α → β)
    (l : List (Edge α)) (i : Nat) :
    (l.foldr (fun e out => out.modify (slot e) (entry e :: ·)) (Array.replicate n []))[i]? =
      if i < n then some ((l.filter fun e => slot e = i).map entry) else none := by
  induction l with
  | nil => rw [List.foldr_nil, Array.getElem?_replicate]; rfl
  | cons e l ih =>
      rw [List.foldr_cons, Array.getElem?_modify, ih]
      by_cases hi : i < n
      · by_cases he : slot e = i <;> simp [hi, he]
      · simp [hi]

def edgesAt (g : Graph α) (i : Nat) : List (Edge α) :=
  g.edges.toList.filter fun e => e.source.slot = i

theorem mem_edgesAt {g : Graph α} {i : Nat} {e : Edge α} :
    e ∈ g.edgesAt i ↔ e ∈ g.edges ∧ e.source.slot = i := by
  simp [edgesAt]

theorem edgesFrom_eq (g : Graph α) (v : VertexId) : g.edgesFrom v = g.edgesAt v.slot := by
  simp only [edgesFrom, edgesAt, VertexId.slot_inj]

theorem getElem?_outbound_slot (g : Graph α) {i : Nat} (hi : i < g.vertices.size) :
    g.outbound[i]? = some ((g.edgesAt i).map fun e => (e.dest.slot, e.probability)) := by
  unfold outbound
  rw [← Array.foldr_toList, getElem?_foldr_modify, if_pos hi]
  rfl

theorem getElem?_outbound (g : Graph α) {v : VertexId} (hv : v.slot < g.vertices.size) :
    g.outbound[v.slot]? =
      some ((g.edgesFrom v).map fun e => (e.dest.slot, e.probability)) := by
  rw [getElem?_outbound_slot g hv, edgesFrom_eq]

theorem size_outbound (g : Graph α) : g.outbound.size = g.vertices.size := by
  unfold outbound
  rw [← Array.foldr_toList]
  induction g.edges.toList with
  | nil => exact Array.size_replicate
  | cons e l ih => rw [List.foldr_cons, Array.size_modify, ih]

/-- For each slot the destinations of the edges that leave it. -/
def adjacency (g : Graph α) : Array (List Nat) := g.outbound.map fun edges => edges.map (·.1)

theorem size_adjacency (g : Graph α) : g.adjacency.size = g.vertices.size := by
  rw [adjacency, Array.size_map, size_outbound]

theorem successorsIn_adjacency_slot (g : Graph α) {i : Nat} (hi : i < g.vertices.size) :
    successorsIn g.adjacency i = (g.edgesAt i).map (·.dest.slot) := by
  rw [successorsIn, adjacency, Array.getElem?_map, getElem?_outbound_slot g hi, Option.map_some,
    Option.getD_some, List.map_map]
  rfl

theorem successorsIn_adjacency (g : Graph α) {v : VertexId} (hv : v.slot < g.vertices.size) :
    successorsIn g.adjacency v.slot = (g.edgesFrom v).map (·.dest.slot) := by
  rw [successorsIn_adjacency_slot g hv, edgesFrom_eq]

theorem Anchored.follows_iff {g : Graph α} (hg : g.Anchored) {i j : Nat} :
    Follows g.adjacency i j ↔ ∃ e ∈ g.edges, e.source.slot = i ∧ e.dest.slot = j := by
  constructor
  · intro h
    have hi : i < g.vertices.size := size_adjacency g ▸ lt_of_follows h
    rw [Follows, successorsIn_adjacency_slot g hi] at h
    obtain ⟨e, he, rfl⟩ := List.mem_map.mp h
    obtain ⟨hmem, hsource⟩ := mem_edgesAt.mp he
    exact ⟨e, hmem, hsource, rfl⟩
  · rintro ⟨e, he, rfl, rfl⟩
    rw [Follows, successorsIn_adjacency_slot g (hg.ends_of_mem he).1]
    exact List.mem_map_of_mem (mem_edgesAt.mpr ⟨he, rfl⟩)

theorem Anchored.closed_adjacency {g : Graph α} (hg : g.Anchored) : Closed g.adjacency := by
  intro i j hj
  obtain ⟨e, he, -, rfl⟩ := hg.follows_iff.mp hj
  rw [size_adjacency]
  exact (hg.ends_of_mem he).2

theorem Arranged.follows_iff {g : Graph α} (hg : g.Arranged) {v w : VertexId}
    (hv : v.slot < g.vertices.size) : Follows g.adjacency v.slot w.slot ↔ g.Joined v w := by
  rw [Follows, successorsIn_adjacency g hv, ← hg.mem_dests_iff, List.mem_map, List.mem_map]
  exact exists_congr fun e => and_congr_right fun _ => VertexId.slot_inj

theorem Arranged.closed_adjacency {g : Graph α} (hg : g.Arranged) : Closed g.adjacency :=
  Anchored.closed_adjacency hg.ends

theorem Arranged.reaches_of_leadsTo {g : Graph α} (hg : g.Arranged) {v w : VertexId}
    (hv : v.slot < g.vertices.size) (h : LeadsTo g.adjacency v.slot w.slot) : g.Reaches v w := by
  -- all slots on the way are slots of vertices, because successors are in range
  have hstep : ∀ i, LeadsTo g.adjacency v.slot i →
      i < g.vertices.size ∧ ∀ u : VertexId, u.slot = i → g.Reaches v u := by
    intro i hi
    induction hi with
    | refl => exact ⟨hv, fun u hu => VertexId.slot_inj.mp hu ▸ Relation.ReflTransGen.refl⟩
    | @tail j i _ hfollows ih =>
        obtain ⟨hj, hreach⟩ := ih
        refine ⟨size_adjacency g ▸ hg.closed_adjacency j i hfollows, fun u hu => ?_⟩
        obtain ⟨x, rfl⟩ := hg.exists_slot hj
        rw [← hu, hg.follows_iff hj] at hfollows
        exact (hreach x rfl).tail hfollows
  exact (hstep _ h).2 w rfl

/-! ## The order of the traversal -/

def closingOrder (g : Graph α) : List Nat := (run g.adjacency).order

def ClosedBefore (g : Graph α) (d v : VertexId) : Prop :=
  ∃ later earlier, g.closingOrder = later ++ v.slot :: earlier ∧ d.slot ∈ earlier

theorem Anchored.perm_closingOrder {g : Graph α} (hg : g.Anchored) :
    g.closingOrder.Perm (List.range g.vertices.size) :=
  size_adjacency g ▸ perm_order_run hg.closed_adjacency

theorem Arranged.perm_closingOrder {g : Graph α} (hg : g.Arranged) :
    g.closingOrder.Perm (List.range g.vertices.size) :=
  Anchored.perm_closingOrder hg.ends

theorem Arranged.nodup_closingOrder {g : Graph α} (hg : g.Arranged) : g.closingOrder.Nodup :=
  hg.perm_closingOrder.nodup_iff.mpr List.nodup_range

theorem settled_suffix {out : Array (List Nat)} {v : Nat} {earlier : List Nat} :
    ∀ {later : List Nat}, Settled out (later ++ v :: earlier) →
      ∀ w ∈ successorsIn out v, w ∈ earlier ∨ LeadsTo out w v
  | [], h => h.1
  | _ :: _, h => settled_suffix h.2

theorem Arranged.exists_split {g : Graph α} (hg : g.Arranged) {v : VertexId}
    (hv : v.slot < g.vertices.size) :
    ∃ later earlier, g.closingOrder = later ++ v.slot :: earlier :=
  List.append_of_mem (hg.perm_closingOrder.mem_iff.mpr (List.mem_range.mpr hv))

/-- An edge whose destination was not closed before its source closes a directed cycle. -/
theorem Arranged.closedBefore_or_reaches {g : Graph α} (hg : g.Arranged) {v w : VertexId}
    (h : g.Joined v w) : g.ClosedBefore w v ∨ g.Reaches w v := by
  have hv : v.slot < g.vertices.size :=
    slot_lt_of_edgeBetween (Option.isSome_iff_exists.mp h).choose_spec
  obtain ⟨later, earlier, hsplit⟩ := hg.exists_split hv
  have hsettled : Settled g.adjacency (later ++ v.slot :: earlier) :=
    hsplit ▸ settled_order_run hg.closed_adjacency
  have hfollows := (hg.follows_iff hv).mpr h
  rcases settled_suffix hsettled w.slot hfollows with hmem | hleads
  · exact .inl ⟨later, earlier, hsplit, hmem⟩
  · have hw : w.slot < g.vertices.size :=
      size_adjacency g ▸ hg.closed_adjacency _ _ hfollows
    exact .inr (hg.reaches_of_leadsTo hw hleads)

theorem Arranged.wellFounded_closedBefore {g : Graph α} (hg : g.Arranged) :
    WellFounded g.ClosedBefore := by
  -- what was closed earlier stands earlier in the reversed order
  refine Subrelation.wf ?_ (measure fun v => (g.closingOrder.reverse.idxOf v.slot)).wf
  rintro d v ⟨later, earlier, hsplit, hmem⟩
  have hnodup := hg.nodup_closingOrder
  rw [hsplit] at hnodup
  have hv : v.slot ∉ earlier := (List.nodup_cons.mp (List.nodup_append.mp hnodup).2.1).1
  show g.closingOrder.reverse.idxOf d.slot < g.closingOrder.reverse.idxOf v.slot
  rw [hsplit, List.reverse_append, List.reverse_cons, List.append_assoc,
    List.idxOf_append_of_mem (List.mem_reverse.mpr hmem),
    List.idxOf_append_of_notMem (by simpa using hv)]
  exact (List.idxOf_lt_length_of_mem (List.mem_reverse.mpr hmem)).trans_le (Nat.le_add_right _ _)

/-! ## Forecasts along the order -/

variable [Weight α]

/-- The forecasts that are known once the listed slots have been closed, the last one first. -/
def knownAfter (g : Graph α) (order : List Nat) : Array (Option (Forecast α)) :=
  order.foldr
    (fun slot known =>
      match g.vertices[slot]? with
      | some v =>
          known.setIfInBounds slot
            (some (g.forecastOf g.partitions known v (g.outbound[slot]?.getD [])))
      | none => known)
    (Array.replicate g.vertices.size none)

theorem forecasts_eq (g : Graph α) : g.forecasts = g.knownAfter g.closingOrder := by
  unfold forecasts
  rw [List.foldl_reverse]
  rfl

theorem size_knownAfter (g : Graph α) (order : List Nat) :
    (g.knownAfter order).size = g.vertices.size := by
  induction order with
  | nil => exact Array.size_replicate
  | cons slot order ih =>
      rw [knownAfter, List.foldr_cons]
      split
      · exact Array.size_setIfInBounds.trans ih
      · exact ih

theorem knownAfter_cons {g : Graph α} {slot : Nat} {x : Vertex α}
    (hx : g.vertices[slot]? = some x) (order : List Nat) (i : Nat) :
    (g.knownAfter (slot :: order))[i]?.join =
      if slot = i then
        some (g.forecastOf g.partitions (g.knownAfter order) x (g.outbound[slot]?.getD []))
      else (g.knownAfter order)[i]?.join := by
  have hlt : slot < (g.knownAfter order).size := by
    rw [size_knownAfter]
    exact (Array.getElem?_eq_some_iff.mp hx).1
  have hcons : g.knownAfter (slot :: order) = (g.knownAfter order).setIfInBounds slot
      (some (g.forecastOf g.partitions (g.knownAfter order) x (g.outbound[slot]?.getD []))) := by
    conv_lhs => rw [knownAfter, List.foldr_cons, hx]
    rfl
  rw [hcons, getElem?_set_of_lt hlt]
  split <;> rfl

/-- What is known at a slot does not depend on what is closed after it. -/
theorem knownAfter_append (g : Graph α) {i : Nat} (order : List Nat) :
    ∀ {later : List Nat}, (∀ slot ∈ later, slot < g.vertices.size) → i ∉ later →
      (g.knownAfter (later ++ order))[i]?.join = (g.knownAfter order)[i]?.join
  | [], _, _ => rfl
  | slot :: later, hlater, hi => by
      obtain ⟨hslot, hrest⟩ := List.forall_mem_cons.mp hlater
      have hne : slot ≠ i := fun heq => hi (heq ▸ List.mem_cons_self)
      rw [List.cons_append, knownAfter_cons (Array.getElem?_eq_getElem hslot), if_neg hne]
      exact g.knownAfter_append order hrest fun hmem => hi (List.mem_cons_of_mem _ hmem)

theorem knownAfter_eq_none (g : Graph α) {i : Nat} {order : List Nat}
    (horder : ∀ slot ∈ order, slot < g.vertices.size) (hi : i ∉ order) :
    (g.knownAfter order)[i]?.join = none := by
  have happend := g.knownAfter_append [] horder hi
  rw [List.append_nil] at happend
  rw [happend, knownAfter, List.foldr_nil, Array.getElem?_replicate]
  split <;> rfl

def forecastAt (g : Graph α) (v : VertexId) : Option (Forecast α) := g.forecasts[v.slot]?.join

/-- The forecast of a vertex is computed from those of the destinations that were closed before it,
and from no others. -/
theorem Arranged.forecastAt_eq {g : Graph α} (hg : g.Arranged) {v : VertexId} {x : Vertex α}
    (hx : g.vertex? v = some x) :
    ∃ known : Array (Option (Forecast α)),
      g.forecastAt v = some (g.forecastOf g.partitions known x
        ((g.edgesFrom v).map fun e => (e.dest.slot, e.probability))) ∧
      (∀ d, g.ClosedBefore d v → known[d.slot]?.join = g.forecastAt d) ∧
      ∀ d, ¬g.ClosedBefore d v → known[d.slot]?.join = none := by
  have hv := slot_lt_of_vertex? hx
  obtain ⟨later, earlier, hsplit⟩ := hg.exists_split hv
  have hnodup := hg.nodup_closingOrder
  have hrange : ∀ slot ∈ g.closingOrder, slot < g.vertices.size := fun slot hslot =>
    List.mem_range.mp (hg.perm_closingOrder.mem_iff.mp hslot)
  rw [hsplit] at hnodup hrange
  obtain ⟨-, htail, hdisjoint⟩ := List.nodup_append.mp hnodup
  have hlater : ∀ slot ∈ later, slot < g.vertices.size :=
    fun slot hslot => hrange slot (List.mem_append_left _ hslot)
  have hearlier : ∀ slot ∈ earlier, slot < g.vertices.size := fun slot hslot =>
    hrange slot (List.mem_append_right later (List.mem_cons_of_mem _ hslot))
  have hat : ∀ d : VertexId, d.slot ∈ v.slot :: earlier →
      g.forecastAt d = (g.knownAfter (v.slot :: earlier))[d.slot]?.join := by
    intro d hd
    rw [forecastAt, forecasts_eq, hsplit]
    exact g.knownAfter_append _ hlater fun hmem => hdisjoint _ hmem _ hd rfl
  refine ⟨g.knownAfter earlier, ?_, fun d hd => ?_, fun d hd => ?_⟩
  · rw [hat v List.mem_cons_self, knownAfter_cons hx, if_pos rfl, getElem?_outbound g hv,
      Option.getD_some]
  · obtain ⟨later', earlier', hsplit', hmem⟩ := hd
    -- the order lists a slot once, so both splits at it are the same
    have honce : v.slot ∉ later ∧ v.slot ∉ earlier :=
      ⟨fun h => hdisjoint _ h _ List.mem_cons_self rfl, (List.nodup_cons.mp htail).1⟩
    obtain ⟨rfl, -, rfl⟩ := (List.append_cons_inj_of_notMem honce.1 honce.2).mp
      (hsplit.symm.trans hsplit')
    have hne : v.slot ≠ d.slot := fun heq => (List.nodup_cons.mp htail).1 (heq ▸ hmem)
    rw [hat d (List.mem_cons_of_mem _ hmem), knownAfter_cons hx, if_neg hne]
  · exact g.knownAfter_eq_none hearlier fun hmem => hd ⟨later, earlier, hsplit, hmem⟩

end Graph

end PathForecast
