import PathForecast.Proofs.Lockstep
import PathForecast.Proofs.Training

/-!
# Closing a window early

A recompute moves hits from one counter to another, settles the samples that wait, and derives
probabilities. If more is learned and recomputed again, none of that shows any more: the hits come
to the same sums, the samples have been settled in two goes, and the probabilities are derived anew.
Main statements: `Timing.Trails.settle`, samples may be settled in two goes, `lockstep_recompute`, a
graph stays in lockstep with what it was before a recompute, and `Lockstep.recompute`, the next
recompute makes both equal, up to the number of recomputes.
-/

set_option autoImplicit false

namespace PathForecast

/-! ## Samples settled in two goes -/

theorem satAdd_right_comm (n a b : UInt64) : satAdd (satAdd n a) b = satAdd (satAdd n b) a := by
  apply UInt64.toNat_inj.mp
  rw [toNat_satAdd, toNat_satAdd, toNat_satAdd, toNat_satAdd]
  omega

namespace Timing

theorem keep_right_comm (t : Timing) (a b : UInt64) : (t.keep a).keep b = (t.keep b).keep a := by
  simp only [keep, satAdd_right_comm t.total a b]

instance : RightCommutative fun (t : Timing) (s : SampleKey × UInt64) => t.keep s.2 :=
  ⟨fun t a b => keep_right_comm t a.2 b.2⟩

theorem eq_or_mem_of_mem_keys_record {t : Timing} {sample key : SampleKey} {duration : UInt64}
    (h : key ∈ (t.record sample duration).keys) : key = sample ∨ key ∈ t.keys := by
  obtain ⟨s, hs, rfl⟩ := List.mem_map.mp h
  rcases List.mem_cons.mp hs with rfl | hs
  · exact .inl rfl
  · exact .inr (List.mem_map_of_mem (List.mem_of_mem_filter hs))

/-- `u` still holds the samples `old`, which `t` has settled among `finished`. Otherwise both have
the same samples. -/
structure Trails (u t : Timing) (old : List (SampleKey × UInt64)) (finished : List SampleKey) :
    Prop where
  pending : u.pending = t.pending ++ old
  kept : { t with pending := [] } = { u with pending := old }.settle finished

namespace Trails

variable {t u : Timing} {old : List (SampleKey × UInt64)} {finished : List SampleKey}

theorem empty (finished : List SampleKey) : Timing.empty.Trails .empty [] finished := ⟨rfl, rfl⟩

theorem of_settle (u : Timing) (finished : List SampleKey) :
    u.Trails (u.settle finished) u.pending finished := by
  have hpending := pending_settle u finished
  refine ⟨by rw [hpending, List.nil_append], ?_⟩
  show { u.settle finished with pending := [] } = u.settle finished
  rw [← hpending]

/-- A sample of another transaction leaves the old samples alone. -/
theorem record (h : u.Trails t old finished) {sample : SampleKey}
    (hsample : sample ∉ old.map (·.1)) (duration : UInt64) :
    (u.record sample duration).Trails (t.record sample duration) old finished := by
  refine ⟨?_, h.kept⟩
  have hold : old.filter (fun s => decide (s.1 ≠ sample)) = old := by
    apply List.filter_eq_self.mpr
    intro s hs
    apply decide_eq_true
    rintro rfl
    exact hsample (List.mem_map_of_mem hs)
  show (sample, duration) :: u.pending.filter _ = (sample, duration) :: t.pending.filter _ ++ old
  rw [h.pending, List.filter_append, hold, List.cons_append]

/-- Settling the old samples with the new ones comes to the same as settling them before. -/
theorem settle (h : u.Trails t old finished) {sooner later : List SampleKey}
    (hnew : ∀ s ∈ t.pending, s.1 ∈ sooner ↔ s.1 ∈ later)
    (hold : ∀ s ∈ old, s.1 ∈ finished ↔ s.1 ∈ later) : t.settle sooner = u.settle later := by
  have hnewFilter : t.pending.filter (fun s => decide (s.1 ∈ sooner)) =
      t.pending.filter fun s => decide (s.1 ∈ later) :=
    List.filter_congr fun s hs => decide_eq_decide.mpr (hnew s hs)
  have holdFilter : old.filter (fun s => decide (s.1 ∈ finished)) =
      old.filter fun s => decide (s.1 ∈ later) :=
    List.filter_congr fun s hs => decide_eq_decide.mpr (hold s hs)
  rw [Timing.settle, h.kept, hnewFilter, Timing.settle, holdFilter, ← List.foldl_append,
    Timing.settle, h.pending, List.filter_append]
  exact List.perm_append_comm.foldl_eq _

end Trails

end Timing

/-! ## Vertices and edges from their parts -/

section Parts

variable {α : Type}

theorem Vertex.eq_of_frame {x y : Vertex α} (hframe : x.frame = y.frame) (hhits : x.hits = y.hits)
    (htiming : x.timing = y.timing) (hforecast : x.forecast = y.forecast) : x = y := by
  obtain ⟨hid, helement, hstate, hsuccessors⟩ := (x.frame_eq_iff y).mp hframe
  cases x
  cases y
  simp_all only

/-- Whatever probability an edge had, that of a source with hits takes its place. -/
theorem Edge.derive_congr [Weight α] {e f : Edge α} (hframe : e.frame = f.frame)
    (hhits : e.hits = f.hits) {sourceHits : UInt64} (h : sourceHits ≠ 0) :
    e.derive sourceHits = f.derive sourceHits := by
  obtain ⟨hid, helement, hsource, hdest⟩ := (e.frame_eq_iff f).mp hframe
  rw [derive, derive, if_neg h, if_neg h]
  cases e
  cases f
  simp_all only

end Parts

namespace Graph

variable {α : Type}

/-! ## Samples that wait -/

def pendingAt (g : Graph α) (i : Nat) : List (SampleKey × UInt64) :=
  (g.vertices[i]?.map (·.timing.pending)).getD []

theorem pendingAt_eq {g : Graph α} {i : Nat} {x : Vertex α} (hx : g.vertices[i]? = some x) :
    g.pendingAt i = x.timing.pending := by
  rw [pendingAt, hx, Option.map_some, Option.getD_some]

theorem pendingAt_of_le {g : Graph α} {i : Nat} (hi : g.vertices.size ≤ i) :
    g.pendingAt i = [] := by
  rw [pendingAt, Array.getElem?_eq_none hi]
  rfl

/-- Some sample of a transaction has not been settled. -/
def Awaits (g : Graph α) (key : SampleKey) : Prop :=
  ∃ (i : Nat) (x : Vertex α), g.vertices[i]? = some x ∧ key ∈ x.timing.keys

theorem awaits_of_mem {g : Graph α} {i : Nat} {key : SampleKey}
    (h : key ∈ (g.pendingAt i).map (·.1)) : g.Awaits key := by
  by_cases hi : i < g.vertices.size
  · have hx := Array.getElem?_eq_getElem hi
    rw [pendingAt_eq hx] at h
    exact ⟨i, _, hx, h⟩
  · rw [pendingAt_of_le (Nat.le_of_not_lt hi)] at h
    cases h

theorem mem_finishedKeys (g : Graph α) (key : SampleKey) :
    key ∈ g.finishedKeys ↔
      key ∈ (g.pendingAt Markers.fixed.commit.slot).map (·.1) ∨
        (g.settings.timingPolicy.includesAborted = true ∧
          key ∈ (g.pendingAt Markers.fixed.abort.slot).map (·.1)) := by
  have hkeys : ∀ v : VertexId, ((g.vertex? v).map (·.timing.keys)).getD [] =
      (g.pendingAt v.slot).map (·.1) := by
    intro v
    unfold pendingAt vertex?
    cases g.vertices[v.slot]? <;> rfl
  simp only [finishedKeys, hkeys]
  split
  · next h => simp [h]
  · next h => simp [h]

theorem awaits_of_mem_finishedKeys {g : Graph α} {key : SampleKey} (h : key ∈ g.finishedKeys) :
    g.Awaits key := by
  rcases (g.mem_finishedKeys key).mp h with h | ⟨-, h⟩
  · exact awaits_of_mem h
  · exact awaits_of_mem h

/-- How the samples of a graph that was recomputed at `b` compare with those of one that was not:
the old ones have been settled, and the new ones are of other transactions. -/
def Trails (b : Graph α) (i : Nat) (t u : Timing) : Prop :=
  u.Trails t (b.pendingAt i) b.finishedKeys ∧ ∀ key ∈ t.keys, ¬b.Awaits key

theorem timely_trails {b : Graph α} {sample : SampleKey} (h : ¬b.Awaits sample) :
    Timely b.vertices.size b.Trails sample where
  empty i hi := by
    rw [Trails, pendingAt_of_le hi]
    exact ⟨.empty _, nofun⟩
  record := by
    rintro i t u duration ⟨htrails, hnew⟩
    refine ⟨htrails.record (fun hmem => h (awaits_of_mem hmem)) duration, fun key hkey => ?_⟩
    rcases Timing.eq_or_mem_of_mem_keys_record hkey with rfl | hkey
    · exact h
    · exact hnew key hkey

namespace Lockstep

variable {b g k : Graph α} (h : Lockstep b.vertices.size b.Trails g k)

include h

theorem pendingAt_eq (i : Nat) : k.pendingAt i = g.pendingAt i ++ b.pendingAt i := by
  by_cases hi : i < g.vertices.size
  · have hx := Array.getElem?_eq_getElem hi
    obtain ⟨y, hy, -⟩ := vertex_of_layout h.layout.symm hx
    rw [Graph.pendingAt_eq hx, Graph.pendingAt_eq hy]
    exact (h.vertices i _ y hx hy).2.1.pending
  · have hg : g.vertices.size ≤ i := Nat.le_of_not_lt hi
    have hk : k.vertices.size ≤ i := (size_vertices_of_layout h.layout).trans_le hg
    rw [pendingAt_of_le hg, pendingAt_of_le hk, pendingAt_of_le (h.size_le.trans hg)]
    rfl

theorem mem_finishedKeys (hsettings : b.settings = g.settings) (key : SampleKey) :
    key ∈ k.finishedKeys ↔ key ∈ g.finishedKeys ∨ key ∈ b.finishedKeys := by
  have hk : k.settings = g.settings := congrArg Layout.settings h.layout
  rw [k.mem_finishedKeys, g.mem_finishedKeys, b.mem_finishedKeys, hk, hsettings, h.pendingAt_eq,
    h.pendingAt_eq, List.map_append, List.map_append, List.mem_append, List.mem_append]
  tauto

/-- What waits in a graph that has been recomputed at `b` has come since. -/
theorem not_awaits {key : SampleKey} (hkey : g.Awaits key) : ¬b.Awaits key := by
  obtain ⟨i, x, hx, hmem⟩ := hkey
  obtain ⟨y, hy, -⟩ := vertex_of_layout h.layout.symm hx
  exact (h.vertices i x y hx hy).2.2 key hmem

theorem settle_eq (hsettings : b.settings = g.settings) {i : Nat} {x y : Vertex α}
    (hx : g.vertices[i]? = some x) (hy : k.vertices[i]? = some y) :
    x.timing.settle g.finishedKeys = y.timing.settle k.finishedKeys := by
  have hmem := h.mem_finishedKeys hsettings
  refine (h.vertices i x y hx hy).2.1.settle (fun s hs => ?_) fun s hs => ?_
  · have hnew : ¬b.Awaits s.1 := h.not_awaits ⟨i, x, hx, List.mem_map_of_mem hs⟩
    rw [hmem]
    exact (or_iff_left fun hold => hnew (awaits_of_mem_finishedKeys hold)).symm
  · have hold : b.Awaits s.1 := awaits_of_mem (List.mem_map_of_mem hs)
    rw [hmem]
    exact (or_iff_right fun hnew => h.not_awaits (awaits_of_mem_finishedKeys hnew) hold).symm

end Lockstep

variable [Weight α]

/-! ## Recomputing in lockstep -/

theorem exists_vertex_recompute {g r : Graph α} (h : g.recompute = .ok r) {i : Nat} {x : Vertex α}
    (hx : r.vertices[i]? = some x) :
    ∃ y, g.vertices[i]? = some y ∧ x.hits = y.hits.fold ∧
      x.timing = y.timing.settle g.finishedKeys := by
  obtain ⟨-, -, rfl⟩ := (recompute_eq_ok_iff g r).mp h
  simp only [propagate, deriveProbabilities, closeWindow, Array.getElem?_mapIdx,
    Array.getElem?_map, Option.map_map] at hx
  obtain ⟨y, hy, rfl⟩ := Option.map_eq_some_iff.mp hx
  refine ⟨y, hy, ?_⟩
  simp only [Function.comp_apply]
  split <;> exact ⟨rfl, rfl⟩

theorem exists_hits_recompute {g r : Graph α} (h : g.recompute = .ok r) {j : Nat} {e : Edge α}
    (he : r.edges[j]? = some e) : ∃ f, g.edges[j]? = some f ∧ e.hits = f.hits.fold := by
  rw [(recompute_parts h).1, deriveProbabilities, closeWindow, Array.getElem?_map,
    Array.getElem?_map, Option.map_map] at he
  obtain ⟨f, hf, rfl⟩ := Option.map_eq_some_iff.mp he
  refine ⟨f, hf, ?_⟩
  simp only [Function.comp_apply]
  split
  · exact hits_derive _ _
  · rfl

theorem getElem?_edges_recomputed {g : Graph α} {j : Nat} {e : Edge α} {x : Vertex α}
    (he : g.edges[j]? = some e) (hx : g.closeWindow.vertex? e.source = some x) :
    g.closeWindow.deriveProbabilities.edges[j]? = some (e.foldHits.derive x.hits.total) := by
  have hclosed : g.closeWindow.edges[j]? = some e.foldHits := by
    rw [closeWindow, Array.getElem?_map, he, Option.map_some]
  have hsource : g.closeWindow.vertex? e.foldHits.source = some x := hx
  simp only [deriveProbabilities, Array.getElem?_map, hclosed, Option.map_some, hsource]

/-- A recompute leaves a graph in lockstep with what it was before. -/
theorem lockstep_recompute {b g : Graph α} (h : b.recompute = .ok g) :
    Lockstep b.vertices.size b.Trails g b where
  layout := (layout_of_recompute h).symm
  size_le := (size_vertices_of_layout (layout_of_recompute h)).ge
  transactionCount := (transactions_recompute h).1.symm
  batchEnds := by
    obtain ⟨-, -, rfl⟩ := (recompute_eq_ok_iff b g).mp h
    rfl
  mispredictions := by
    obtain ⟨-, -, rfl⟩ := (recompute_eq_ok_iff b g).mp h
    rfl
  vertices i x y hx hy := by
    obtain ⟨y', hy', hhits, htiming⟩ := exists_vertex_recompute h hx
    rw [hy, Option.some.injEq] at hy'
    subst hy'
    refine ⟨by rw [hhits, HitCount.fold_fold], ?_, ?_⟩
    · rw [Graph.pendingAt_eq hy, htiming]
      exact .of_settle _ _
    · rw [htiming, Timing.keys, Timing.pending_settle]
      nofun
  edges j e f he hf := by
    obtain ⟨f', hf', hhits⟩ := exists_hits_recompute h he
    rw [hf, Option.some.injEq] at hf'
    rw [hhits, HitCount.fold_fold, hf']

namespace Lockstep

variable {b g k : Graph α} (h : Lockstep b.vertices.size b.Trails g k)

include h

theorem learnAll (ts : List (TransactionTrace × Estimator)) :
    (∀ t ∈ ts, ¬b.Awaits t.1.sampleKey) →
      Lockstep b.vertices.size b.Trails (g.performAll (lessons ts))
        (k.performAll (lessons ts)) := by
  induction ts generalizing g k with
  | nil => exact fun _ => h
  | cons t ts ih =>
      intro hts
      have hfirst := timely_trails (hts t List.mem_cons_self)
      exact ih (h.learn hfirst t.2) fun u hu => hts u (List.mem_cons_of_mem _ hu)

/-- Closing the window makes the vertices of both graphs equal. -/
theorem vertices_closeWindow (hsettings : b.settings = g.settings) :
    k.closeWindow.vertices = g.closeWindow.vertices := by
  apply Array.ext_getElem?
  intro i
  have hframe := map_frame_of_layout h.layout i
  simp only [closeWindow, Array.getElem?_map]
  cases hx : g.vertices[i]? with
  | none =>
      rw [hx] at hframe
      rw [Option.map_eq_none_iff.mp hframe]
      rfl
  | some x =>
      obtain ⟨y, hy, hxy⟩ := vertex_of_layout h.layout.symm hx
      rw [hy]
      refine congrArg some (Vertex.eq_of_frame hxy ?_ ?_ rfl)
      · exact (h.vertices i x y hx hy).1.symm
      · exact (h.settle_eq hsettings hx hy).symm

/-- So do the derived probabilities with the edges, if every source has hits. -/
theorem edges_deriveProbabilities (hsettings : b.settings = g.settings)
    (hsource : ∀ e ∈ g.edges, ∃ x, g.closeWindow.vertex? e.source = some x ∧ x.hits.total ≠ 0) :
    k.closeWindow.deriveProbabilities.edges = g.closeWindow.deriveProbabilities.edges := by
  apply Array.ext_getElem?
  intro j
  cases he : g.edges[j]? with
  | none =>
      have hg := Array.getElem?_eq_none_iff.mp he
      have hk := (size_edges_of_layout h.layout).trans_le hg
      rw [Array.getElem?_eq_none, Array.getElem?_eq_none]
      · rwa [deriveProbabilities, closeWindow, Array.size_map, Array.size_map]
      · rwa [deriveProbabilities, closeWindow, Array.size_map, Array.size_map]
  | some e =>
      obtain ⟨f, hf, hef⟩ := edge_of_layout h.layout.symm he
      obtain ⟨x, hx, hne⟩ := hsource e (Array.mem_of_getElem? he)
      have hends : f.source = e.source := ((f.frame_eq_iff e).mp hef).2.2.1
      have hx' : k.closeWindow.vertex? f.source = some x := by
        rw [vertex?, h.vertices_closeWindow hsettings, hends]
        exact hx
      rw [getElem?_edges_recomputed he hx, getElem?_edges_recomputed hf hx']
      have hhits : f.foldHits.hits = e.foldHits.hits := (h.edges j e f he hf).symm
      exact congrArg some (Edge.derive_congr (e := f.foldHits) (f := e.foldHits) hef hhits hne)

end Lockstep

/-- A propagation reads nothing but vertices and edges. -/
theorem vertices_propagate {g k : Graph α} (hvertices : k.vertices = g.vertices)
    (hedges : k.edges = g.edges) : k.propagate.vertices = g.propagate.vertices := by
  simp only [propagate, forecasts, outbound, partitions, forecastOf, hvertices, hedges]

def uncounted (g : Graph α) : Graph α := { g with recomputeCount := 0 }

omit [Weight α] in
theorem uncounted_eq {g k : Graph α} (hlayout : k.layout = g.layout)
    (hvertices : k.vertices = g.vertices) (hedges : k.edges = g.edges)
    (hbatchEnds : k.batchEnds = g.batchEnds) (hcount : k.transactionCount = g.transactionCount)
    (hsince : k.transactionsAtRecompute = g.transactionsAtRecompute)
    (hmispredictions : k.mispredictions = g.mispredictions) : k.uncounted = g.uncounted := by
  simp only [layout, Layout.mk.injEq] at hlayout
  obtain ⟨hprocedure, hsettings, hseeded, -, -, hnext, hindex, hmemo⟩ := hlayout
  simp only [uncounted, Graph.mk.injEq]
  exact ⟨hprocedure, hsettings, hseeded, hvertices, hedges, hnext, hindex, hmemo, hbatchEnds,
    hcount, hsince, hmispredictions, trivial⟩

/-- Recomputes turn graphs in lockstep into the same graph, up to the number of recomputes. -/
theorem Lockstep.recompute {b g k r l : Graph α} (h : Lockstep b.vertices.size b.Trails g k)
    (hsettings : b.settings = g.settings)
    (hsource : ∀ e ∈ g.edges, ∃ x, g.closeWindow.vertex? e.source = some x ∧ x.hits.total ≠ 0)
    (hr : g.recompute = .ok r) (hl : k.recompute = .ok l) : l.uncounted = r.uncounted := by
  have hlayout : l.layout = r.layout :=
    (layout_of_recompute hl).trans (h.layout.trans (layout_of_recompute hr).symm)
  have hedges := h.edges_deriveProbabilities hsettings hsource
  have hvertices : k.closeWindow.deriveProbabilities.propagate.vertices =
      g.closeWindow.deriveProbabilities.propagate.vertices :=
    vertices_propagate (h.vertices_closeWindow hsettings) hedges
  obtain ⟨-, -, rfl⟩ := (recompute_eq_ok_iff g r).mp hr
  obtain ⟨-, -, rfl⟩ := (recompute_eq_ok_iff k l).mp hl
  exact uncounted_eq hlayout hvertices hedges h.batchEnds h.transactionCount h.transactionCount
    h.mispredictions

end Graph

end PathForecast
