import Mathlib
import PathForecast.Proofs.PathSums

/-!
# Forecasts as sums over paths

In a trained graph without directed cycles the propagation leaves no edge out, and every forecast is
a sum over the directed paths to the terminal markers. The two partition forecasts are local tests
in the code; they are right about whole paths because a query vertex remembers as its past what was
touched at the vertex before it. Main statement: `forecast_eq_pathSum`.
-/

set_option autoImplicit false

namespace PathForecast

open Ledger

namespace PartitionSet

theorem nodup_ids (s : PartitionSet) : s.ids.Nodup :=
  s.ascending.imp fun hlt heq => Nat.ne_of_lt hlt (congrArg rank heq)

theorem size_le_size_union (s t : PartitionSet) : s.size ≤ (s ∪ t).size := by
  refine (List.subperm_of_subset s.nodup_ids fun p hp => ?_).length_le
  exact (mem_union p s t).mpr (.inl hp)

theorem size_le_size_foldl {β : Type} (parts : β → PartitionSet) (l : List β) :
    ∀ s : PartitionSet, s.size ≤ (l.foldl (fun s b => s ∪ parts b) s).size := by
  induction l with
  | nil => exact fun s => Nat.le_refl _
  | cons b l ih => exact fun s => (s.size_le_size_union (parts b)).trans (ih _)

end PartitionSet

/-- The forecast from a tally that has left no edge out. -/
theorem Tally.forecast_of_kept (t : Tally Rat) (touched : PartitionSet)
    (h : t.skipped = false) :
    t.forecast touched =
      { abort := min t.sum.abort 1
        singlePartition := min (if 1 < touched.size then 0 else t.sum.singlePartition) 1
        noNewPartitions := min t.sum.noNewPartitions 1
        done := t.sum.done.mapValues fun _ d => min d 1 } := by
  simp only [Tally.forecast, h, Bool.false_and, Bool.false_eq_true, if_false, least_rat]

namespace Graph

/-- The partitions touched at a vertex together with those of all later vertices on a path. -/
def touchedAlong {α : Type} (g : Graph α) (v : VertexId) (path : List VertexId) : PartitionSet :=
  path.tail.foldl (fun s w => s ∪ (g.stateOf w).partitions) (g.stateOf v).touched

/-- The four forecasts of a vertex are sums over the paths from it. -/
structure Foretold (g : Graph Rat) (v : VertexId) : Prop where
  abort : (g.outlook v).abort =
    g.pathSum v fun path => path.getLast? = some Markers.fixed.abort
  singlePartition : (g.outlook v).singlePartition =
    g.pathSum v fun path => (g.touchedAlong v path).size ≤ 1
  noNewPartitions : (g.outlook v).noNewPartitions =
    g.pathSum v fun path =>
      ∀ w ∈ path.tail, ∀ p ∈ (g.stateOf w).partitions, p ∈ (g.stateOf v).touched
  done : ∀ p ∈ g.partitions, (g.outlook v).done.get? p =
    some (g.pathSum v fun path => ∀ w ∈ path.tail, p ∉ (g.stateOf w).partitions)

theorem Marked.stateOf_terminal {α : Type} {g : Graph α} (hg : g.Marked) (h : g.seeded = true)
    (aborted : Bool) : g.stateOf (terminal aborted) = if aborted then .abort else .commit := by
  cases aborted with
  | false =>
      show (g.state? Markers.fixed.commit).getD .start = .commit
      rw [hg.commit h]
      rfl
  | true =>
      show (g.state? Markers.fixed.abort).getD .start = .abort
      rw [hg.abort h]
      rfl

theorem Marked.partitions_terminal {α : Type} {g : Graph α} (hg : g.Marked)
    (h : g.seeded = true) (aborted : Bool) : (g.stateOf (terminal aborted)).partitions = ∅ := by
  rw [hg.stateOf_terminal h]
  cases aborted <;> rfl

namespace Trained

variable {r : Graph Rat} {es : List Event} (hr : r.Trained es)

/-! ## Steps of learned transactions -/

include hr

theorem endsClosed : r.EndsClosed :=
  fun aborted _ h => hr.ne_terminal_of_joined h aborted rfl

/-- A step leads to a query vertex or to a terminal marker. -/
theorem query_or_terminal {v w : VertexId} (h : r.Joined v w) :
    (∃ key, r.state? w = some (.query key)) ∨ ∃ aborted, w = terminal aborted := by
  obtain ⟨path, hpath, hleg⟩ := (hr.tallied.joined v w).mp h
  obtain ⟨mid, aborted, rfl, hquery⟩ := (hr.tallied.routes path hpath).shape
  have hmem : w ∈ mid ++ [terminal aborted] := (List.of_mem_zip hleg).2
  rcases List.mem_append.mp hmem with hmem | hmem
  · exact .inl (hquery w hmem)
  · exact .inr ⟨aborted, List.mem_singleton.mp hmem⟩

/-- With past partitions in the identity, a step to a query vertex adds that vertex's partitions to
what has been touched. -/
theorem touched_of_joined (hpast : r.settings.usePastPartitions = true) {v w : VertexId}
    (h : r.Joined v w) {key : VertexKey} (hw : r.state? w = some (.query key)) :
    (r.stateOf w).touched = (r.stateOf v).touched ∪ (r.stateOf w).partitions := by
  obtain ⟨s, d, hs, hd, hprecedes⟩ := hr.leads_of_joined h
  rw [hw, Option.some.injEq] at hd
  subst hd
  have hkey : key.past = s.touched := hprecedes.past hpast rfl
  rw [stateOf, stateOf, hw, hs, Option.getD_some, Option.getD_some, ← hkey]
  rfl

theorem stateOf_terminal (aborted : Bool) :
    r.stateOf (terminal aborted) = if aborted then .abort else .commit :=
  hr.tallied.marked.stateOf_terminal hr.tallied.seeded aborted

theorem partitions_terminal (aborted : Bool) :
    (r.stateOf (terminal aborted)).partitions = ∅ :=
  hr.tallied.marked.partitions_terminal hr.tallied.seeded aborted

theorem isTerminal_terminal (aborted : Bool) :
    (r.stateOf (terminal aborted)).kind.isTerminal = true := by
  rw [hr.stateOf_terminal]
  cases aborted <;> rfl

theorem outlook_terminal (aborted : Bool) :
    r.outlook (terminal aborted) =
      .ofTerminal r.partitions (if aborted then .abort else .commit) := by
  obtain ⟨d, hd, hkind⟩ := state?_terminal hr.tallied.marked hr.tallied.seeded aborted
  obtain ⟨x, hx, rfl⟩ := Option.map_eq_some_iff.mp hd
  have hstate := hr.stateOf_terminal aborted
  rw [stateOf_eq hx] at hstate
  rw [hr.outlook_eq_tally hx, if_pos hkind, hstate]
  cases aborted <;> rfl

/-! ## Running vertices -/

variable (hacyclic : r.Acyclic)

include hacyclic

theorem closedBefore {v w : VertexId} (h : r.Joined v w) : r.ClosedBefore w v :=
  hr.tallied.arranged.closedBefore_of_acyclic hacyclic h

/-- Without cycles no edge is left out. -/
theorem skipped_tallyAt (v : VertexId) : (r.tallyAt v).skipped = false := by
  refine List.foldlRecOn (motive := fun t : Tally Rat => t.skipped = false) _ _ rfl
    fun t h e he => ?_
  rw [if_pos (hr.closedBefore hacyclic (hr.tallied.arranged.joined_of_mem he))]
  exact h

theorem includedSum_eq (v : VertexId) (gain : Edge Rat → Rat) :
    r.includedSum v gain = ((r.edgesFrom v).map gain).sum := by
  refine congrArg List.sum (List.map_congr_left fun e he => if_pos ?_)
  exact hr.closedBefore hacyclic (hr.tallied.arranged.joined_of_mem he)

theorem mem_pathsFrom {v : VertexId} {path : List VertexId} (hpath : path ∈ r.pathsFrom v) :
    ∃ rest, path = v :: rest := by
  have hhead := ((hr.tallied.arranged.mem_pathsFrom hacyclic hr.endsClosed v path).mp hpath).head
  cases path with
  | nil => cases hhead
  | cons u rest => exact ⟨rest, by rw [Option.some.inj hhead]⟩

theorem mem_pathsFrom_terminal {aborted : Bool} {path : List VertexId}
    (hpath : path ∈ r.pathsFrom (terminal aborted)) : path = [terminal aborted] := by
  rwa [pathsFrom_terminal hr.tallied.arranged hacyclic hr.endsClosed,
    Finset.mem_singleton] at hpath

/-- The paths from a vertex carry at most the whole probability. -/
theorem pathSum_le_one (v : VertexId) (φ : List VertexId → Prop) : r.pathSum v φ ≤ 1 := by
  induction v using hr.tallied.arranged.wellFounded_closedBefore.induction generalizing φ with
  | _ v ih =>
      have hg := hr.tallied.arranged
      by_cases hv : ∃ aborted, v = terminal aborted
      · obtain ⟨aborted, rfl⟩ := hv
        by_cases hφ : φ [terminal aborted]
        · exact (pathSum_terminal hg hacyclic hr.endsClosed aborted hφ).le
        · refine (pathSum_eq_zero fun path hpath => ?_).le.trans zero_le_one
          rwa [hr.mem_pathsFrom_terminal hacyclic hpath]
      · -- the shares of the outbound edges add up to one, unless there are none
        rw [pathSum_eq hg hacyclic hr.endsClosed (not_exists.mp hv)]
        by_cases hnone : r.edgesFrom v = []
        · rw [hnone]
          exact zero_le_one
        · rw [← hr.sum_probability hnone]
          refine List.sum_le_sum fun e he => ?_
          refine mul_le_of_le_one_right (hr.probability_pos (mem_edgesFrom.mp he).1).le ?_
          exact ih e.dest (hr.closedBefore hacyclic (hg.joined_of_mem he)) _

/-- A sum over the outbound edges is the sum over the paths that begin with them. -/
theorem least_includedSum {v : VertexId} (hv : ∀ aborted, v ≠ terminal aborted)
    {φ : List VertexId → Prop} {gain : Edge Rat → Rat}
    (hgain : ∀ e ∈ r.edgesFrom v,
      gain e = e.probability * r.pathSum e.dest fun path => φ (v :: path)) :
    min (r.includedSum v gain) 1 = r.pathSum v φ := by
  have hsum : r.includedSum v gain = r.pathSum v φ := by
    rw [hr.includedSum_eq hacyclic,
      pathSum_eq hr.tallied.arranged hacyclic hr.endsClosed hv]
    exact congrArg List.sum (List.map_congr_left hgain)
  rw [hsum]
  exact min_eq_left (hr.pathSum_le_one hacyclic v φ)

/-! ## Terminal markers -/

theorem foretold_terminal (aborted : Bool) : r.Foretold (terminal aborted) := by
  -- the marker alone is the only path from it
  have hone := fun {φ : List VertexId → Prop} (h : φ [terminal aborted]) =>
    pathSum_terminal hr.tallied.arranged hacyclic hr.endsClosed aborted h
  refine ⟨?_, ?_, ?_, fun p hp => ?_⟩
  · rw [hr.outlook_terminal]
    cases aborted with
    | true =>
        rw [hone]
        · rfl
        · rfl
    | false =>
        refine (pathSum_eq_zero fun path hpath habort => ?_).symm
        rw [hr.mem_pathsFrom_terminal hacyclic hpath] at habort
        cases habort
  · rw [hr.outlook_terminal, hone]
    · rfl
    · show ((r.stateOf (terminal aborted)).touched).size ≤ 1
      rw [hr.stateOf_terminal]
      cases aborted <;> decide
  · rw [hr.outlook_terminal, hone nofun]
    rfl
  · rw [hr.outlook_terminal, hone nofun]
    exact (Table.get?_ofKeys _ r.partitions.ascending _ p).trans (if_pos hp)

/-! ## Running vertices, one forecast at a time -/

/-- What holds of the states of a whole path holds of its next vertex and from there on. -/
theorem gain_throughout {v : VertexId} (ψ : VertexState → Prop) [DecidablePred ψ]
    (hends : ∀ aborted, ψ (r.stateOf (terminal aborted))) {e : Edge Rat} (he : e ∈ r.edgesFrom v)
    {next : Rat} (hnext : ∀ key, r.state? e.dest = some (.query key) → ψ (r.stateOf e.dest) →
      next = r.pathSum e.dest fun path => ∀ w ∈ path.tail, ψ (r.stateOf w)) :
    (if (r.stateOf e.dest).kind.isTerminal then e.probability
      else if ψ (r.stateOf e.dest) then e.probability * next
      else 0) =
      e.probability * r.pathSum e.dest fun path => ∀ w ∈ (v :: path).tail, ψ (r.stateOf w) := by
  rcases hr.query_or_terminal (hr.tallied.arranged.joined_of_mem he) with
    ⟨key, hkey⟩ | ⟨aborted, hterminal⟩
  · have hrunning : (r.stateOf e.dest).kind.isTerminal = false := by
      rw [stateOf, hkey]
      rfl
    rw [hrunning, if_neg Bool.false_ne_true]
    by_cases hdest : ψ (r.stateOf e.dest)
    · -- the first vertex of the rest is the destination itself
      rw [if_pos hdest, hnext key hkey hdest]
      refine congrArg (e.probability * ·) (pathSum_congr fun path hpath => ?_)
      obtain ⟨rest, rfl⟩ := hr.mem_pathsFrom hacyclic hpath
      rw [List.tail_cons, List.tail_cons, List.forall_mem_cons]
      exact (and_iff_right hdest).symm
    · rw [if_neg hdest, pathSum_eq_zero, mul_zero]
      intro path hpath hall
      obtain ⟨rest, rfl⟩ := hr.mem_pathsFrom hacyclic hpath
      exact hdest (hall e.dest List.mem_cons_self)
  · rw [hterminal, pathSum_terminal hr.tallied.arranged hacyclic hr.endsClosed, mul_one,
      hr.isTerminal_terminal, if_pos rfl]
    intro w hw
    rw [List.mem_singleton.mp hw]
    exact hends aborted

section Running

variable (hpast : r.settings.usePastPartitions = true) {v : VertexId}
  (hnext : ∀ w, r.Joined v w → r.Foretold w)

include hnext

theorem gain_abort {e : Edge Rat} (he : e ∈ r.edgesFrom v) :
    e.probability * (r.outlook e.dest).abort =
      e.probability * r.pathSum e.dest fun path =>
        (v :: path).getLast? = some Markers.fixed.abort := by
  rw [(hnext _ (hr.tallied.arranged.joined_of_mem he)).abort]
  refine congrArg (e.probability * ·) (pathSum_congr fun path hpath => ?_)
  obtain ⟨rest, rfl⟩ := hr.mem_pathsFrom hacyclic hpath
  rw [List.getLast?_cons_cons]

include hpast

theorem gain_singlePartition (hsize : (r.stateOf v).touched.size ≤ 1) {e : Edge Rat}
    (he : e ∈ r.edgesFrom v) :
    e.probability * (r.outlook e.dest).singlePartition =
      e.probability * r.pathSum e.dest fun path =>
        (r.touchedAlong v (v :: path)).size ≤ 1 := by
  have hjoined := hr.tallied.arranged.joined_of_mem he
  rw [(hnext _ hjoined).singlePartition]
  refine congrArg (e.probability * ·) (pathSum_congr fun path hpath => ?_)
  rcases hr.query_or_terminal hjoined with ⟨key, hkey⟩ | ⟨aborted, hterminal⟩
  · obtain ⟨rest, rfl⟩ := hr.mem_pathsFrom hacyclic hpath
    -- the past of the query vertex is what was touched before it
    have htouched := hr.touched_of_joined hpast hjoined hkey
    show (List.foldl _ (r.stateOf e.dest).touched rest).size ≤ 1 ↔
      (List.foldl _ ((r.stateOf v).touched ∪ (r.stateOf e.dest).partitions) rest).size ≤ 1
    rw [htouched]
  · rw [hterminal] at hpath
    obtain rfl := hr.mem_pathsFrom_terminal hacyclic hpath
    refine iff_of_true ?_ ?_
    · show ((r.stateOf e.dest).touched).size ≤ 1
      rw [hterminal, hr.stateOf_terminal]
      cases aborted <;> decide
    · show ((r.stateOf v).touched ∪ (r.stateOf (terminal aborted)).partitions).size ≤ 1
      rw [hr.partitions_terminal]
      exact hsize

theorem gain_noNewPartitions {e : Edge Rat} (he : e ∈ r.edgesFrom v) :
    (if (r.stateOf e.dest).kind.isTerminal then e.probability
      else if (r.stateOf e.dest).partitions.isSubset (r.stateOf v).touched then
        e.probability * (r.outlook e.dest).noNewPartitions
      else 0) =
      e.probability * r.pathSum e.dest fun path =>
        ∀ w ∈ (v :: path).tail, ∀ p ∈ (r.stateOf w).partitions, p ∈ (r.stateOf v).touched := by
  have hjoined := hr.tallied.arranged.joined_of_mem he
  simp only [← PartitionSet.isSubset_iff]
  refine hr.gain_throughout hacyclic (·.partitions.isSubset (r.stateOf v).touched = true)
    (fun aborted => ?_) he fun key hkey hsub => ?_
  · rw [hr.partitions_terminal]
    rfl
  · -- nothing new is touched at the destination
    have htouched : (r.stateOf e.dest).touched = (r.stateOf v).touched := by
      rw [hr.touched_of_joined hpast hjoined hkey]
      refine PartitionSet.ext fun p => ?_
      rw [PartitionSet.mem_union]
      exact or_iff_left_of_imp ((PartitionSet.isSubset_iff _ _).mp hsub p)
    rw [(hnext _ hjoined).noNewPartitions, htouched]
    simp only [PartitionSet.isSubset_iff]

omit hpast

theorem gain_done {p : PartitionId} (hp : p ∈ r.partitions) {e : Edge Rat}
    (he : e ∈ r.edgesFrom v) :
    (if (r.stateOf e.dest).kind.isTerminal then e.probability
      else if p ∈ (r.stateOf e.dest).partitions then 0
      else e.probability * (r.outlook e.dest).doneWith p) =
      e.probability * r.pathSum e.dest fun path =>
        ∀ w ∈ (v :: path).tail, p ∉ (r.stateOf w).partitions := by
  rw [← ite_not (p ∈ (r.stateOf e.dest).partitions)]
  refine hr.gain_throughout hacyclic (p ∉ ·.partitions) (fun aborted => ?_) he fun key _ hmem => ?_
  · rw [hr.partitions_terminal]
    exact PartitionSet.not_mem_empty p
  · rw [Forecast.doneWith, (hnext _ (hr.tallied.arranged.joined_of_mem he)).done p hp,
      Option.getD_some]

end Running

/-- What its successors foretell, a running vertex foretells too. -/
theorem foretold_running (hpast : r.settings.usePastPartitions = true) {v : VertexId}
    {x : Vertex Rat} (hx : r.vertex? v = some x) (hrunning : x.state.kind.isTerminal = false)
    (hnext : ∀ w, r.Joined v w → r.Foretold w) : r.Foretold v := by
  have hv := hr.tallied.marked.ne_terminal hr.tallied.seeded (state?_eq hx) hrunning
  have houtlook := hr.outlook_eq_tally hx
  rw [hrunning, if_neg Bool.false_ne_true,
    Tally.forecast_of_kept _ _ (hr.skipped_tallyAt hacyclic v), ← stateOf_eq hx] at houtlook
  refine ⟨?_, ?_, ?_, fun p hp => ?_⟩
  · rw [houtlook]
    dsimp only
    rw [abort_tallyAt]
    exact hr.least_includedSum hacyclic hv fun e he => hr.gain_abort hacyclic hnext he
  · rw [houtlook]
    dsimp only
    by_cases hsize : 1 < (r.stateOf v).touched.size
    · -- more than one partition has been touched already, whatever comes later
      rw [if_pos hsize, pathSum_eq_zero, min_eq_left zero_le_one]
      intro path _ hle
      have hgrow := PartitionSet.size_le_size_foldl (fun w => (r.stateOf w).partitions)
        path.tail (r.stateOf v).touched
      exact absurd (hgrow.trans hle) (Nat.not_le_of_lt hsize)
    · rw [if_neg hsize, singlePartition_tallyAt]
      exact hr.least_includedSum hacyclic hv fun e he =>
        hr.gain_singlePartition hacyclic hpast hnext (Nat.le_of_not_lt hsize) he
  · rw [houtlook]
    dsimp only
    rw [noNewPartitions_tallyAt]
    exact hr.least_includedSum hacyclic hv fun e he =>
      hr.gain_noNewPartitions hacyclic hpast hnext he
  · rw [houtlook]
    dsimp only
    rw [Table.get?_mapValues, done_tallyAt r v hp, Option.map_some]
    exact congrArg some (hr.least_includedSum hacyclic hv fun e he =>
      hr.gain_done hacyclic hnext hp he)

/-- Every running vertex and every terminal marker foretells. -/
theorem foretold (hpast : r.settings.usePastPartitions = true) (v : VertexId)
    (hv : (∃ x, r.vertex? v = some x ∧ x.state.kind.isTerminal = false) ∨
      ∃ aborted, v = terminal aborted) : r.Foretold v := by
  induction v using hr.tallied.arranged.wellFounded_closedBefore.induction with
  | _ v ih =>
      rcases hv with ⟨x, hx, hrunning⟩ | ⟨aborted, rfl⟩
      · -- without cycles every successor was closed before, so the induction reaches it
        refine hr.foretold_running hacyclic hpast hx hrunning fun w hw => ?_
        refine ih w (hr.closedBefore hacyclic hw) ?_
        rcases hr.query_or_terminal hw with ⟨key, hkey⟩ | hterminal
        · obtain ⟨y, hy, hstate⟩ := Option.map_eq_some_iff.mp hkey
          exact .inl ⟨y, hy, by rw [hstate]; rfl⟩
        · exact .inr hterminal
      · exact hr.foretold_terminal hacyclic aborted

end Trained

/-! ## Lists of traces -/

/-- After learning a list of traces and recomputing, in a graph whose vertices know their past and
which has no directed cycle, each forecast of the start marker and of every query vertex is the sum
of the probabilities of the directed paths on which it comes true. -/
theorem forecast_eq_pathSum (p : Procedure) (s : ModelSettings Rat)
    (hpast : s.usePastPartitions = true) (ts : List (TransactionTrace × Estimator))
    (hbound : (learned ((fresh p s).ledger (lessons ts))).length < UInt64.size)
    (hfit : ((fresh p s).performAll (lessons ts)).Fits)
    (hacyclic : ((fresh p s).performAll (lessons ts ++ [Change.recompute])).Acyclic) :
    let g := (fresh p s).performAll (lessons ts ++ [Change.recompute])
    ∀ v x, g.vertex? v = some x → x.state.kind = .start ∨ x.state.kind = .query →
      (∀ path, path ∈ g.pathsFrom v ↔ g.PathFrom v path) ∧
      x.forecast.abort =
        g.pathSum v (fun path => path.getLast? = some Markers.fixed.abort) ∧
      x.forecast.singlePartition =
        g.pathSum v (fun path => (g.touchedAlong v path).size ≤ 1) ∧
      x.forecast.noNewPartitions =
        g.pathSum v (fun path =>
          ∀ w ∈ path.tail, ∀ q ∈ (g.stateOf w).partitions, q ∈ (g.stateOf v).touched) ∧
      ∀ q ∈ g.partitions, x.forecast.done.get? q =
        some (g.pathSum v fun path => ∀ w ∈ path.tail, q ∉ (g.stateOf w).partitions) := by
  intro g v x hx hkind
  have hr : g.Trained _ := trained_lessons p s ts hbound hfit
  have hsettings : g.settings = s := settings_performAll p s _
  have hrunning : x.state.kind.isTerminal = false := by
    rcases hkind with hkind | hkind
    · rw [hkind]; rfl
    · rw [hkind]; rfl
  have hforetold : g.Foretold v :=
    hr.foretold hacyclic (by rw [hsettings]; exact hpast) v (.inl ⟨x, hx, hrunning⟩)
  rw [← outlook_eq hx]
  exact ⟨hr.tallied.arranged.mem_pathsFrom hacyclic hr.endsClosed v, hforetold.abort,
    hforetold.singlePartition, hforetold.noNewPartitions, hforetold.done⟩

/-- A transaction that goes on to a second partition and commits, and one that aborts before. -/
def branching : List (TransactionTrace × Estimator) :=
  [(⟨⟨1⟩, ⟨1⟩, 0, 9, false, some ⟨0⟩,
      [⟨⟨10⟩, 1, 2, none⟩, ⟨⟨11⟩, 3, 4, some (.singleton ⟨1⟩)⟩]⟩, .recorded),
    (transferTrace 2 true [10], .recorded)]

def branchingGraph : Graph Rat :=
  (fresh transfer .standard).performAll (lessons branching ++ [Change.recompute])

theorem forecast_eq_pathSum_branching :
    (learned ((fresh transfer (.standard : ModelSettings Rat)).ledger (lessons branching))).length =
        2 ∧
      branchingGraph.Acyclic ∧
      branchingGraph.pathSum ⟨0⟩ (fun path => path.getLast? = some Markers.fixed.abort) = 1 / 2 ∧
      branchingGraph.pathSum ⟨0⟩ (fun path => (branchingGraph.touchedAlong ⟨0⟩ path).size ≤ 1) =
        1 / 2 ∧
      branchingGraph.pathSum ⟨0⟩
        (fun path => ∀ w ∈ path.tail, ⟨1⟩ ∉ (branchingGraph.stateOf w).partitions) = 1 / 2 ∧
      branchingGraph.pathSum ⟨3⟩ (fun path => ∀ w ∈ path.tail,
        ∀ q ∈ (branchingGraph.stateOf w).partitions, q ∈ (branchingGraph.stateOf ⟨3⟩).touched) =
          1 / 2 := by
  have hlength : (learned ((fresh transfer (.standard : ModelSettings Rat)).ledger
      (lessons branching))).length = 2 := by decide +kernel
  have hbound : (learned ((fresh transfer (.standard : ModelSettings Rat)).ledger
      (lessons branching))).length < UInt64.size := by
    rw [hlength]
    decide
  have hfit :
      ((fresh transfer (.standard : ModelSettings Rat)).performAll (lessons branching)).Fits :=
    ⟨by decide +kernel, by decide +kernel⟩
  have hr : branchingGraph.Trained _ := trained_lessons transfer .standard branching hbound hfit
  have hacyclic : branchingGraph.Acyclic := by
    -- the terminal markers come last
    refine hr.tallied.arranged.acyclic_of_rank
      (fun v => if v = ⟨1⟩ ∨ v = ⟨2⟩ then 5 else v.slot) ?_
    decide +kernel
  have hvertices : (branchingGraph.vertex? ⟨0⟩).map (·.state.kind) = some .start ∧
      (branchingGraph.vertex? ⟨3⟩).map (·.state.kind) = some .query := by decide +kernel
  obtain ⟨x, hx, hstart⟩ := Option.map_eq_some_iff.mp hvertices.1
  obtain ⟨y, hy, hquery⟩ := Option.map_eq_some_iff.mp hvertices.2
  obtain ⟨-, habort, hsingle, -, hdone⟩ :=
    forecast_eq_pathSum transfer .standard rfl branching hbound hfit hacyclic _ x hx (.inl hstart)
  obtain ⟨-, -, -, hnoNew, -⟩ :=
    forecast_eq_pathSum transfer .standard rfl branching hbound hfit hacyclic _ y hy (.inr hquery)
  rw [← outlook_eq hx] at habort hsingle hdone
  rw [← outlook_eq hy] at hnoNew
  refine ⟨hlength, hacyclic, habort.symm.trans ?_, hsingle.symm.trans ?_,
    Option.some.inj ((hdone ⟨1⟩ ?_).symm.trans ?_), hnoNew.symm.trans ?_⟩
  all_goals decide +kernel

end Graph

end PathForecast
