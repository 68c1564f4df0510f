import PathForecast.Proofs.Accounting
import PathForecast.Proofs.Identity

/-!
# Learning in lockstep

What a graph learns from a trace, and where, depends on its layout alone. Two graphs of one layout
are therefore changed in the same places by the same trace, and what is related in them stays
related: the hits of a vertex or an edge up to the windows that they were counted in, and the
samples of a vertex by any relation that recording a sample keeps. Main statement: `Lockstep.learn`.
-/

set_option autoImplicit false

namespace PathForecast

theorem HitCount.fold_record {h k : HitCount} (hfold : h.fold = k.fold) :
    h.record.fold = k.record.fold := by
  have hsum : h.folded + h.window = k.folded + k.window := congrArg HitCount.folded hfold
  show (⟨h.folded + (h.window + 1), 0⟩ : HitCount) = ⟨k.folded + (k.window + 1), 0⟩
  rw [← UInt64.add_assoc, hsum, UInt64.add_assoc]

/-! ## Arrays compared slot by slot -/

/-- Entries in the same slot of two arrays are related. -/
def Slotwise {β γ : Type} (R : Nat → β → γ → Prop) (xs : Array β) (ys : Array γ) : Prop :=
  ∀ i x y, xs[i]? = some x → ys[i]? = some y → R i x y

namespace Slotwise

variable {β γ : Type} {R : Nat → β → γ → Prop} {xs : Array β} {ys : Array γ}

theorem modify (h : Slotwise R xs ys) (s : Nat) {f : β → β} {f' : γ → γ}
    (hf : ∀ i x y, R i x y → R i (f x) (f' y)) :
    Slotwise R (xs.modify s f) (ys.modify s f') := by
  intro i x y hx hy
  rw [Array.getElem?_modify] at hx hy
  by_cases hi : s = i
  · rw [if_pos hi] at hx hy
    obtain ⟨x₀, hx₀, rfl⟩ := Option.map_eq_some_iff.mp hx
    obtain ⟨y₀, hy₀, rfl⟩ := Option.map_eq_some_iff.mp hy
    exact hf i x₀ y₀ (h i x₀ y₀ hx₀ hy₀)
  · rw [if_neg hi] at hx hy
    exact h i x y hx hy

theorem push (h : Slotwise R xs ys) (hsize : ys.size = xs.size) {a : β} {b : γ}
    (hab : R xs.size a b) : Slotwise R (xs.push a) (ys.push b) := by
  intro i x y hx hy
  rw [Array.getElem?_push] at hx hy
  rw [hsize] at hy
  by_cases hi : i = xs.size
  · rw [if_pos hi] at hx hy
    cases hx
    cases hy
    exact hi ▸ hab
  · rw [if_neg hi] at hx hy
    exact h i x y hx hy

end Slotwise

namespace Graph

variable {α : Type}

/-! ## Handles and look-ups in graphs of one layout -/

theorem nextVertex_of_layout {g k : Graph α} (h : k.layout = g.layout) :
    k.nextVertex = g.nextVertex :=
  congrArg VertexId.ofSlot (size_vertices_of_layout h)

theorem nextEdge_of_layout {g k : Graph α} (h : k.layout = g.layout) : k.nextEdge = g.nextEdge :=
  congrArg EdgeId.ofSlot (size_edges_of_layout h)

theorem findKey_of_layout {g k : Graph α} (h : k.layout = g.layout) (key : VertexKey) :
    k.findKey key = g.findKey key := by
  have hsettings : k.settings = g.settings := congrArg Layout.settings h
  rw [findKey_eq, findKey_eq, bucket_of_layout h, hsettings]
  simp only [state?_of_layout h]

/-! ## The relation -/

/-- Two graphs of one layout that have counted the same hits, in whatever windows, and whose samples
are related slot by slot. From slot `n` on the vertices were added in both. -/
structure Lockstep (n : Nat) (T : Nat → Timing → Timing → Prop) (g k : Graph α) : Prop where
  layout : k.layout = g.layout
  size_le : n ≤ g.vertices.size
  transactionCount : k.transactionCount = g.transactionCount
  batchEnds : k.batchEnds = g.batchEnds
  mispredictions : k.mispredictions = g.mispredictions
  vertices : Slotwise (fun i x y => x.hits.fold = y.hits.fold ∧ T i x.timing y.timing)
    g.vertices k.vertices
  edges : Slotwise (fun _ e f => e.hits.fold = f.hits.fold) g.edges k.edges

/-- A relation between samples that holds where there are none yet and that a sample keeps. -/
structure Timely (n : Nat) (T : Nat → Timing → Timing → Prop) (sample : SampleKey) : Prop where
  empty : ∀ i, n ≤ i → T i .empty .empty
  record : ∀ {i t u} (duration : UInt64), T i t u →
    T i (t.record sample duration) (u.record sample duration)

namespace Lockstep

variable {n : Nat} {T : Nat → Timing → Timing → Prop} {g k : Graph α} {sample : SampleKey}

/-- A graph is in lockstep with itself. -/
theorem refl (hn : n ≤ g.vertices.size)
    (hT : ∀ (i : Nat) (x : Vertex α), g.vertices[i]? = some x → T i x.timing x.timing) :
    Lockstep n T g g where
  layout := rfl
  size_le := hn
  transactionCount := rfl
  batchEnds := rfl
  mispredictions := rfl
  vertices i x y hx hy := by
    rw [hx, Option.some.injEq] at hy
    subst hy
    exact ⟨rfl, hT i x hx⟩
  edges j e f he hf := by
    rw [he, Option.some.injEq] at hf
    rw [hf]

/-! ## Counting -/

theorem observe (hT : Timely n T sample) (h : Lockstep n T g k) (v : VertexId)
    (remaining : UInt64) :
    Lockstep n T (g.updateVertex v fun x => x.recordHit.recordElapsed sample remaining)
      (k.updateVertex v fun x => x.recordHit.recordElapsed sample remaining) where
  layout := by
    have hkeep : ∀ x : Vertex α, (x.recordHit.recordElapsed sample remaining).frame = x.frame :=
      fun _ => rfl
    rw [layout_updateVertex k v hkeep, layout_updateVertex g v hkeep, h.layout]
  size_le := by
    rw [updateVertex, Array.size_modify]
    exact h.size_le
  transactionCount := h.transactionCount
  batchEnds := h.batchEnds
  mispredictions := h.mispredictions
  vertices := h.vertices.modify v.slot fun _ _ _ hxy =>
    ⟨HitCount.fold_record hxy.1, hT.record remaining hxy.2⟩
  edges := h.edges

theorem recordEdge (h : Lockstep n T g k) (e : EdgeId) :
    Lockstep n T (g.updateEdge e (·.recordHit)) (k.updateEdge e (·.recordHit)) where
  layout :=
    (layout_updateEdge k e fun f => f.frame_recordHit).trans
      (h.layout.trans (layout_updateEdge g e fun f => f.frame_recordHit).symm)
  size_le := h.size_le
  transactionCount := h.transactionCount
  batchEnds := h.batchEnds
  mispredictions := h.mispredictions
  vertices := h.vertices
  edges := h.edges.modify e.slot fun _ _ _ => HitCount.fold_record

theorem countTransaction (h : Lockstep n T g k) :
    Lockstep n T g.countTransaction k.countTransaction where
  layout := h.layout
  size_le := h.size_le
  transactionCount := congrArg (· + 1) h.transactionCount
  batchEnds := h.batchEnds
  mispredictions := h.mispredictions
  vertices := h.vertices
  edges := h.edges

end Lockstep

variable [Weight α]

/-! ## Layouts after an addition -/

theorem layout_pushQuery (g : Graph α) (key : VertexKey) :
    (g.pushQuery key).layout =
      { g.layout with
        vertices := g.layout.vertices.push ⟨g.nextVertex, ⟨g.nextElement⟩, .query key, ∅⟩
        nextElement := g.nextElement + 1
        index := g.index.insert key.statement ((g.bucket key.statement).push g.nextVertex) } := by
  simp [layout, pushQuery, pushVertex, Vertex.frame, Vertex.fresh]

theorem layout_pushEdge (g : Graph α) (source dest : VertexId) :
    (g.pushEdge source dest).layout =
      { g.layout with
        vertices := g.layout.vertices.modify source.slot fun x =>
          { x with successors := x.successors.insert dest g.nextEdge }
        edges := g.layout.edges.push ⟨g.nextEdge, ⟨g.nextElement⟩, source, dest⟩
        nextElement := g.nextElement + 1
        successorMemo := g.successorMemo.erase source } := by
  have hvertices : (g.vertices.modify source.slot (·.addSuccessor dest g.nextEdge)).map (·.frame) =
      (g.vertices.map (·.frame)).modify source.slot fun x =>
        { x with successors := x.successors.insert dest g.nextEdge } := by
    apply Array.ext_getElem?
    intro i
    simp only [Array.getElem?_map, Array.getElem?_modify]
    split
    · simp only [Option.map_map]
      rfl
    · rfl
  simp [layout, pushEdge, updateVertex, hvertices, Edge.frame, Edge.fresh]

namespace Lockstep

variable {n : Nat} {T : Nat → Timing → Timing → Prop} {g k : Graph α} {sample : SampleKey}

theorem pushQuery (hT : Timely n T sample) (h : Lockstep n T g k) (key : VertexKey) :
    Lockstep n T (g.pushQuery key) (k.pushQuery key) where
  layout := by
    have hnext : k.nextElement = g.nextElement := congrArg Layout.nextElement h.layout
    have hindex : k.index = g.index := congrArg Layout.index h.layout
    rw [layout_pushQuery, layout_pushQuery, h.layout, nextVertex_of_layout h.layout, hnext, hindex,
      bucket_of_layout h.layout]
  size_le := by
    show n ≤ (g.pushVertex (.query key)).vertices.size
    rw [size_pushVertex]
    exact Nat.le_succ_of_le h.size_le
  transactionCount := h.transactionCount
  batchEnds := h.batchEnds
  mispredictions := h.mispredictions
  -- the new vertex has no hits and no samples in either graph
  vertices := h.vertices.push (size_vertices_of_layout h.layout)
    ⟨rfl, hT.empty _ h.size_le⟩
  edges := h.edges

theorem pushEdge (h : Lockstep n T g k) (source dest : VertexId) :
    Lockstep n T (g.pushEdge source dest) (k.pushEdge source dest) where
  layout := by
    have hnext : k.nextElement = g.nextElement := congrArg Layout.nextElement h.layout
    have hmemo : k.successorMemo = g.successorMemo := congrArg Layout.successorMemo h.layout
    rw [layout_pushEdge, layout_pushEdge, h.layout, nextEdge_of_layout h.layout, hnext, hmemo]
  size_le := by
    rw [vertices_pushEdge, updateVertex, Array.size_modify]
    exact h.size_le
  transactionCount := h.transactionCount
  batchEnds := h.batchEnds
  mispredictions := h.mispredictions
  vertices := h.vertices.modify source.slot fun _ _ _ hxy => hxy
  edges := h.edges.push (size_edges_of_layout h.layout) rfl

/-! ## Whole traces -/

theorem ensureVertex (hT : Timely n T sample) (h : Lockstep n T g k) (key : VertexKey) :
    Lockstep n T (g.ensureVertex key).1 (k.ensureVertex key).1 ∧
      (k.ensureVertex key).2 = (g.ensureVertex key).2 := by
  have hfind := findKey_of_layout h.layout key
  cases hg : g.findKey key with
  | some v =>
      rw [ensureVertex_of_some hg, ensureVertex_of_some (hfind.trans hg)]
      exact ⟨h, rfl⟩
  | none =>
      rw [ensureVertex_of_none hg, ensureVertex_of_none (hfind.trans hg)]
      exact ⟨h.pushQuery hT key, nextVertex_of_layout h.layout⟩

theorem ensureEdge (h : Lockstep n T g k) (source dest : VertexId) :
    Lockstep n T (g.ensureEdge source dest).1 (k.ensureEdge source dest).1 ∧
      (k.ensureEdge source dest).2 = (g.ensureEdge source dest).2 := by
  have hbetween := edgeBetween_of_layout h.layout source dest
  cases hg : g.edgeBetween source dest with
  | some e =>
      rw [ensureEdge_of_some hg, ensureEdge_of_some (hbetween.trans hg)]
      exact ⟨h, rfl⟩
  | none =>
      rw [ensureEdge_of_none hg, ensureEdge_of_none (hbetween.trans hg)]
      exact ⟨h.pushEdge source dest, nextEdge_of_layout h.layout⟩

theorem traverseEdge (hT : Timely n T sample) (h : Lockstep n T g k) (source dest : VertexId)
    (remaining : UInt64) :
    Lockstep n T (g.traverseEdge sample source dest remaining)
      (k.traverseEdge sample source dest remaining) := by
  obtain ⟨hensured, hedge⟩ := h.ensureEdge source dest
  show Lockstep n T
    (((g.ensureEdge source dest).1.updateVertex dest _).updateEdge (g.ensureEdge source dest).2 _)
    (((k.ensureEdge source dest).1.updateVertex dest _).updateEdge (k.ensureEdge source dest).2 _)
  rw [hedge]
  exact (hensured.observe hT dest remaining).recordEdge _

theorem follow (hT : Timely n T sample) (h : Lockstep n T g k) (previous : VertexId)
    (visit : Visit) :
    Lockstep n T (g.follow sample previous visit).1 (k.follow sample previous visit).1 ∧
      (k.follow sample previous visit).2 = (g.follow sample previous visit).2 := by
  obtain ⟨hensured, hnext⟩ := h.ensureVertex hT visit.key
  refine ⟨?_, hnext⟩
  show Lockstep n T
    ((g.ensureVertex visit.key).1.traverseEdge sample previous (g.ensureVertex visit.key).2 _)
    ((k.ensureVertex visit.key).1.traverseEdge sample previous (k.ensureVertex visit.key).2 _)
  rw [hnext]
  exact hensured.traverseEdge hT previous _ visit.remaining

theorem followAll (hT : Timely n T sample) (visits : List Visit) :
    ∀ {g k : Graph α} (previous : VertexId), Lockstep n T g k →
      Lockstep n T (g.followAll sample previous visits).1
          (k.followAll sample previous visits).1 ∧
        (k.followAll sample previous visits).2 = (g.followAll sample previous visits).2 := by
  induction visits with
  | nil => exact fun _ h => ⟨h, rfl⟩
  | cons visit visits ih =>
      intro g k previous h
      obtain ⟨hfollow, hnext⟩ := h.follow hT previous visit
      obtain ⟨hrest, hpath⟩ := ih (g.follow sample previous visit).2 hfollow
      rw [followAll_cons, followAll_cons, hnext, hpath]
      exact ⟨hrest, rfl⟩

theorem walk {t : TransactionTrace} (hT : Timely n T t.sampleKey) (h : Lockstep n T g k)
    (visits : List Visit) : Lockstep n T (g.walk t visits).1 (k.walk t visits).1 := by
  have henter : Lockstep n T (g.enter t.sampleKey t.elapsed) (k.enter t.sampleKey t.elapsed) :=
    h.observe hT Markers.fixed.start t.elapsed
  obtain ⟨hfollowed, hpath⟩ := henter.followAll hT visits Markers.fixed.start
  have hlast : k.lastFollowed t visits = g.lastFollowed t visits := by
    rw [lastFollowed, lastFollowed, followed, followed, hpath]
  rw [walk_eq, walk_eq, hlast]
  exact (hfollowed.traverseEdge hT _ _ 0).countTransaction

/-- A trace is learned or refused by both graphs, and what is related in them stays related. -/
theorem learn {t : TransactionTrace} (hT : Timely n T t.sampleKey) (h : Lockstep n T g k)
    (estimator : Estimator) :
    Lockstep n T (g.perform (.learn t estimator)) (k.perform (.learn t estimator)) := by
  have hseeded : k.seeded = g.seeded := congrArg Layout.seeded h.layout
  have hprocedure : k.procedure = g.procedure := congrArg Layout.procedure h.layout
  cases hg : g.learn t estimator with
  | ok r =>
      obtain ⟨hready, visits, hvisits, rfl⟩ := (learn_eq_ok_iff g t estimator r).mp hg
      have hk : k.learn t estimator = .ok (k.walk t visits) :=
        (learn_eq_ok_iff k t estimator _).mpr
          ⟨hseeded.trans hready, visits, hprocedure.symm ▸ hvisits, rfl⟩
      rw [perform_of_learn hg, perform_of_learn hk]
      exact h.walk hT visits
  | error fault =>
      cases hk : k.learn t estimator with
      | error fault' =>
          rw [perform_of_refused hg, perform_of_refused hk]
          exact h
      | ok r =>
          obtain ⟨hready, visits, hvisits, -⟩ := (learn_eq_ok_iff k t estimator r).mp hk
          have hok := (learn_eq_ok_iff g t estimator _).mpr
            ⟨hseeded.symm.trans hready, visits, hprocedure ▸ hvisits, rfl⟩
          rw [hg] at hok
          cases hok

end Lockstep

end Graph

end PathForecast
