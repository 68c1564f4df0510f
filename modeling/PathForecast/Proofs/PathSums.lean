import Mathlib
import PathForecast.Proofs.Training

/-!
# Sums over directed paths

In a graph without directed cycles a vertex has finitely many paths to the terminal markers, and the
sum over the paths from a vertex splits by their first edge (`pathSum_eq`). The probability of a
path is the product of the probabilities of its edges.
-/

set_option autoImplicit false

namespace PathForecast

open Ledger

namespace Graph

/-! ## Paths -/

section Paths

variable {α : Type}

def Acyclic (g : Graph α) : Prop := ∀ v, ¬Relation.TransGen g.Joined v v

/-- A directed path from a vertex to a terminal marker. -/
structure PathFrom (g : Graph α) (v : VertexId) (path : List VertexId) : Prop where
  head : path.head? = some v
  joined : ∀ l ∈ legs path, g.Joined l.1 l.2
  ends : ∃ aborted, path.getLast? = some (terminal aborted)

def EndsClosed (g : Graph α) : Prop := ∀ aborted w, ¬g.Joined (terminal aborted) w

variable {g : Graph α}

theorem pathFrom_iff {v : VertexId} (hv : ∀ aborted, v ≠ terminal aborted)
    (path : List VertexId) :
    g.PathFrom v path ↔ ∃ w rest, path = v :: rest ∧ g.Joined v w ∧ g.PathFrom w rest := by
  constructor
  · rintro ⟨hhead, hjoined, aborted, hend⟩
    cases path with
    | nil => cases hhead
    | cons u rest =>
        obtain rfl : u = v := Option.some.inj hhead
        cases rest with
        | nil => exact absurd (Option.some.inj hend) (hv aborted)
        | cons w rest =>
            refine ⟨w, w :: rest, rfl, hjoined _ List.mem_cons_self, rfl,
              fun l hl => hjoined l (List.mem_cons_of_mem _ hl), aborted, ?_⟩
            rwa [List.getLast?_cons_cons] at hend
  · rintro ⟨w, rest, rfl, hjoined, hhead, hrest, aborted, hend⟩
    cases rest with
    | nil => cases hhead
    | cons u rest =>
        obtain rfl : u = w := Option.some.inj hhead
        refine ⟨rfl, fun l hl => ?_, aborted, by rwa [List.getLast?_cons_cons]⟩
        rcases List.mem_cons.mp hl with rfl | hl
        · exact hjoined
        · exact hrest l hl

theorem pathFrom_terminal_iff (hends : g.EndsClosed) (aborted : Bool) (path : List VertexId) :
    g.PathFrom (terminal aborted) path ↔ path = [terminal aborted] := by
  constructor
  · rintro ⟨hhead, hjoined, -⟩
    cases path with
    | nil => cases hhead
    | cons u rest =>
        obtain rfl : u = terminal aborted := Option.some.inj hhead
        cases rest with
        | nil => rfl
        | cons w rest => exact absurd (hjoined _ List.mem_cons_self) (hends aborted w)
  · rintro rfl
    exact ⟨rfl, nofun, aborted, rfl⟩

theorem Arranged.closedBefore_of_acyclic (hg : g.Arranged) (hacyclic : g.Acyclic)
    {v w : VertexId} (h : g.Joined v w) : g.ClosedBefore w v := by
  rcases hg.closedBefore_or_reaches h with hclosed | hreaches
  · exact hclosed
  · exact absurd (Relation.TransGen.head' h hreaches) (hacyclic v)

theorem Arranged.finite_paths (hg : g.Arranged) (hacyclic : g.Acyclic) (hends : g.EndsClosed)
    (v : VertexId) : {path | g.PathFrom v path}.Finite := by
  induction v using hg.wellFounded_closedBefore.induction with
  | _ v ih =>
      by_cases hv : ∃ aborted, v = terminal aborted
      · obtain ⟨aborted, rfl⟩ := hv
        simp only [pathFrom_terminal_iff hends]
        exact Set.finite_singleton _
      · rw [not_exists] at hv
        let dests : Finset VertexId := ((g.edgesFrom v).map (·.dest)).toFinset
        -- a path from `v` is `v` followed by a path from one of its successors
        have hcover : {path | g.PathFrom v path} ⊆
            ⋃ w ∈ dests, (v :: ·) '' {path | g.PathFrom w path ∧ g.Joined v w} := by
          intro path hpath
          obtain ⟨w, rest, rfl, hjoined, hrest⟩ := (pathFrom_iff hv path).mp hpath
          refine Set.mem_biUnion ?_ ⟨rest, ⟨hrest, hjoined⟩, rfl⟩
          exact List.mem_toFinset.mpr (hg.mem_dests_iff.mpr hjoined)
        refine (Set.Finite.biUnion dests.finite_toSet fun w _ => ?_).subset hcover
        by_cases hjoined : g.Joined v w
        · refine Set.Finite.image _ ((ih w ?_).subset fun path hpath => hpath.1)
          exact hg.closedBefore_of_acyclic hacyclic hjoined
        · simp [hjoined]

/-- A numbering of the vertices that rises along every edge excludes directed cycles. -/
theorem Arranged.acyclic_of_rank (hg : g.Arranged) (rank : VertexId → Nat)
    (h : ∀ l ∈ g.edges.toList.map (·.pair), rank l.1 < rank l.2) : g.Acyclic := by
  have hrise : ∀ {v w : VertexId}, Relation.TransGen g.Joined v w → rank v < rank w := by
    intro v w hvw
    induction hvw with
    | single hstep => exact h _ ((hg.isSome_edgeBetween_iff _ _).mp hstep)
    | tail _ hstep ih => exact ih.trans (h _ ((hg.isSome_edgeBetween_iff _ _).mp hstep))
  exact fun v hv => Nat.lt_irrefl _ (hrise hv)

open Classical in
/-- The paths from a vertex to the terminal markers, none if there are infinitely many. -/
noncomputable def pathsFrom (g : Graph α) (v : VertexId) : Finset (List VertexId) :=
  if h : {path | g.PathFrom v path}.Finite then h.toFinset else ∅

theorem Arranged.mem_pathsFrom (hg : g.Arranged) (hacyclic : g.Acyclic) (hends : g.EndsClosed)
    (v : VertexId) (path : List VertexId) : path ∈ g.pathsFrom v ↔ g.PathFrom v path := by
  rw [pathsFrom, dif_pos (hg.finite_paths hacyclic hends v)]
  exact Set.Finite.mem_toFinset _

end Paths

/-! ## Sums -/

def edgeProbability (g : Graph Rat) (source dest : VertexId) : Rat :=
  (((g.edgeBetween source dest).bind g.edge?).map (·.probability)).getD 0

def pathProbability (g : Graph Rat) (path : List VertexId) : Rat :=
  ((legs path).map fun l => g.edgeProbability l.1 l.2).prod

open Classical in
/-- The probability of all paths from a vertex that satisfy `φ`. -/
noncomputable def pathSum (g : Graph Rat) (v : VertexId) (φ : List VertexId → Prop) : Rat :=
  ∑ path ∈ g.pathsFrom v with φ path, g.pathProbability path

variable {g : Graph Rat}

theorem Arranged.edgeProbability_eq (hg : g.Arranged) {e : Edge Rat} (he : e ∈ g.edges) :
    g.edgeProbability e.source e.dest = e.probability := by
  have hid := hg.edge?_id he
  rw [edgeProbability, hg.edgeBetween_of_edge? hid, Option.bind_some, hid]
  rfl

theorem pathProbability_cons {v w : VertexId} {rest : List VertexId} (hw : rest.head? = some w) :
    g.pathProbability (v :: rest) = g.edgeProbability v w * g.pathProbability rest := by
  cases rest with
  | nil => cases hw
  | cons u rest =>
      obtain rfl : u = w := Option.some.inj hw
      rw [pathProbability, legs_cons_cons, List.map_cons, List.prod_cons]
      rfl

theorem pathSum_congr {v : VertexId} {φ ψ : List VertexId → Prop}
    (h : ∀ path ∈ g.pathsFrom v, φ path ↔ ψ path) : g.pathSum v φ = g.pathSum v ψ := by
  classical
  exact congrArg (fun paths => ∑ path ∈ paths, g.pathProbability path) (Finset.filter_congr h)

theorem pathSum_eq_zero {v : VertexId} {φ : List VertexId → Prop}
    (h : ∀ path ∈ g.pathsFrom v, ¬φ path) : g.pathSum v φ = 0 := by
  classical
  rw [pathSum, Finset.filter_false_of_mem h, Finset.sum_empty]

section Splitting

variable (hg : g.Arranged) (hacyclic : g.Acyclic) (hends : g.EndsClosed)

include hg hacyclic hends

theorem pathsFrom_terminal (aborted : Bool) :
    g.pathsFrom (terminal aborted) = {[terminal aborted]} := by
  ext path
  rw [hg.mem_pathsFrom hacyclic hends, pathFrom_terminal_iff hends, Finset.mem_singleton]

theorem pathSum_terminal (aborted : Bool) {φ : List VertexId → Prop}
    (h : φ [terminal aborted]) : g.pathSum (terminal aborted) φ = 1 := by
  classical
  rw [pathSum, pathsFrom_terminal hg hacyclic hends, Finset.filter_true_of_mem,
    Finset.sum_singleton]
  · rfl
  · intro path hpath
    rwa [Finset.mem_singleton.mp hpath]

theorem pathsFrom_eq {v : VertexId} (hv : ∀ aborted, v ≠ terminal aborted) :
    g.pathsFrom v = ((g.edgesFrom v).map (·.dest)).toFinset.biUnion fun w =>
      (g.pathsFrom w).image (v :: ·) := by
  ext path
  rw [hg.mem_pathsFrom hacyclic hends, pathFrom_iff hv, Finset.mem_biUnion]
  simp only [List.mem_toFinset, hg.mem_dests_iff, Finset.mem_image,
    hg.mem_pathsFrom hacyclic hends]
  constructor
  · rintro ⟨w, rest, rfl, hjoined, hrest⟩
    exact ⟨w, hjoined, rest, hrest, rfl⟩
  · rintro ⟨w, hjoined, rest, hrest, rfl⟩
    exact ⟨w, rest, rfl, hjoined, hrest⟩

/-- The paths from a running vertex split by their first edge. -/
theorem pathSum_eq {v : VertexId} (hv : ∀ aborted, v ≠ terminal aborted)
    (φ : List VertexId → Prop) :
    g.pathSum v φ = ((g.edgesFrom v).map fun e =>
      e.probability * g.pathSum e.dest fun path => φ (v :: path)).sum := by
  classical
  have hhead : ∀ {w path}, path ∈ g.pathsFrom w → path.head? = some w := fun hpath =>
    ((hg.mem_pathsFrom hacyclic hends _ _).mp hpath).head
  -- a path determines the first edge that it takes
  have hdisjoint : (((g.edgesFrom v).map (·.dest)).toFinset : Set VertexId).PairwiseDisjoint
      fun w => (g.pathsFrom w).image (v :: ·) := by
    intro w _ w' _ hne
    refine Finset.disjoint_left.mpr fun path hpath hpath' => hne ?_
    obtain ⟨rest, hrest, rfl⟩ := Finset.mem_image.mp hpath
    obtain ⟨rest', hrest', heq⟩ := Finset.mem_image.mp hpath'
    rw [List.cons.inj heq |>.2] at hrest'
    exact Option.some.inj ((hhead hrest).symm.trans (hhead hrest'))
  have hbranch : ∀ w, ∑ path ∈ (g.pathsFrom w).image (v :: ·),
      (if φ path then g.pathProbability path else 0) =
        g.edgeProbability v w * g.pathSum w fun path => φ (v :: path) := by
    intro w
    rw [Finset.sum_image fun _ _ _ _ h => (List.cons.inj h).2, pathSum, Finset.sum_filter,
      Finset.mul_sum]
    refine Finset.sum_congr rfl fun path hpath => ?_
    rw [pathProbability_cons (hhead hpath), mul_ite, mul_zero]
  calc g.pathSum v φ
      = ∑ path ∈ g.pathsFrom v, if φ path then g.pathProbability path else 0 := by
        rw [pathSum, Finset.sum_filter]
    _ = ∑ w ∈ ((g.edgesFrom v).map (·.dest)).toFinset,
          g.edgeProbability v w * g.pathSum w fun path => φ (v :: path) := by
        rw [pathsFrom_eq hg hacyclic hends hv, Finset.sum_biUnion hdisjoint]
        exact Finset.sum_congr rfl fun w _ => hbranch w
    _ = ((g.edgesFrom v).map fun e =>
          e.probability * g.pathSum e.dest fun path => φ (v :: path)).sum := by
        rw [List.sum_toFinset _ (hg.nodup_dests v), List.map_map]
        refine congrArg List.sum (List.map_congr_left fun e he => ?_)
        obtain ⟨hmem, rfl⟩ := mem_edgesFrom.mp he
        rw [Function.comp_apply, hg.edgeProbability_eq hmem]

end Splitting

end Graph

end PathForecast
