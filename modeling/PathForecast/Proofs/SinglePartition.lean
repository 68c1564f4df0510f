import Mathlib
import PathForecast.Proofs.ForecastSums
import PathForecast.Proofs.Identity

/-!
# Workloads on a single partition

Where every query touches one and the same partition, nothing but the propagation keeps a forecast
of staying on it from being one. A vertex all of whose edges lead back to vertices that were not
closed before it is stranded: nothing is left for its tally, and it forecasts zero. Main statements:
`Carried.eq_one_iff`, a forecast that every kept edge carries over is one if no stranded vertex is
ahead, and `stays_iff_not_stranded`, what that says about a single partition.
-/

set_option autoImplicit false

namespace PathForecast

open Ledger

/-! ## Portions -/

/-- What a tally forecasts from one of its sums: the part of the included weight, at most one. -/
def Tally.portion (t : Tally Rat) (sum : Rat) : Rat :=
  min (if t.skipped && decide (0 < t.included) then sum / t.included else sum) 1

theorem Tally.singlePartition_forecast (t : Tally Rat) {touched : PartitionSet}
    (h : touched.size ≤ 1) :
    (t.forecast touched).singlePartition = t.portion t.sum.singlePartition := by
  refine (least_rat _ 1).trans ?_
  rw [if_neg (Nat.not_lt.mpr h)]
  rfl

theorem Tally.noNewPartitions_forecast (t : Tally Rat) (touched : PartitionSet) :
    (t.forecast touched).noNewPartitions = t.portion t.sum.noNewPartitions :=
  least_rat _ 1

/-- Once an edge has been left out, a tally knows it for good. -/
theorem Tally.of_not_skipped {β : Type} {φ : β → Prop} [DecidablePred φ]
    {add : Tally Rat → β → Tally Rat} (hadd : ∀ t b, (add t b).skipped = t.skipped) (l : List β) :
    ∀ {t : Tally Rat}, (l.foldl (fun t b => if φ b then add t b else t.skip) t).skipped = false →
      t.skipped = false ∧ ∀ b ∈ l, φ b := by
  induction l with
  | nil => exact fun {_} h => ⟨h, nofun⟩
  | cons b l ih =>
      intro t h
      obtain ⟨hstep, hrest⟩ := ih h
      replace hstep : (if φ b then add t b else t.skip).skipped = false := hstep
      by_cases hb : φ b
      · rw [if_pos hb, hadd] at hstep
        exact ⟨hstep, List.forall_mem_cons.mpr ⟨hb, hrest⟩⟩
      · rw [if_neg hb] at hstep
        cases hstep

namespace Graph

/-! ## Sums over the included edges -/

section Sums

variable {g : Graph Rat} {v : VertexId}

theorem includedSum_congr {gain gain' : Edge Rat → Rat}
    (h : ∀ e ∈ g.edgesFrom v, g.ClosedBefore e.dest v → gain e = gain' e) :
    g.includedSum v gain = g.includedSum v gain' := by
  refine congrArg List.sum (List.map_congr_left fun e he => ?_)
  split
  · next hclosed => exact h e he hclosed
  · rfl

theorem includedSum_sub (gain gain' : Edge Rat → Rat) :
    g.includedSum v (fun e => gain e - gain' e) =
      g.includedSum v gain - g.includedSum v gain' := by
  unfold includedSum
  rw [eq_sub_iff_add_eq, ← List.sum_map_add]
  refine congrArg List.sum (List.map_congr_left fun e _ => ?_)
  split
  · exact sub_add_cancel (gain e) (gain' e)
  · exact add_zero 0

theorem includedSum_eq_zero {gain : Edge Rat → Rat}
    (h : ∀ e ∈ g.edgesFrom v, g.ClosedBefore e.dest v → gain e = 0) :
    g.includedSum v gain = 0 := by
  refine List.sum_eq_zero fun a ha => ?_
  obtain ⟨e, he, rfl⟩ := List.mem_map.mp ha
  split
  · next hclosed => exact h e he hclosed
  · rfl

theorem includedSum_eq_zero_iff {gain : Edge Rat → Rat}
    (hgain : ∀ e ∈ g.edgesFrom v, g.ClosedBefore e.dest v → 0 ≤ gain e) :
    g.includedSum v gain = 0 ↔
      ∀ e ∈ g.edgesFrom v, g.ClosedBefore e.dest v → gain e = 0 := by
  refine ⟨fun hzero e he hclosed => le_antisymm ?_ (hgain e he hclosed), includedSum_eq_zero⟩
  rw [← hzero]
  exact le_includedSum hgain he hclosed

/-- A tally that has left nothing out includes every edge. -/
theorem closedBefore_of_not_skipped (h : (g.tallyAt v).skipped = false) :
    ∀ e ∈ g.edgesFrom v, g.ClosedBefore e.dest v := by
  classical
  have hadd : ∀ (t : Tally Rat) (e : Edge Rat), (t.add (g.stateOf v).touched e.probability
      (g.stateOf e.dest) (g.outlook e.dest)).skipped = t.skipped := fun _ _ => rfl
  exact (Tally.of_not_skipped hadd _ h).2

end Sums

/-! ## Forecasts that are carried over -/

def Kept {α : Type} (g : Graph α) (v w : VertexId) : Prop := g.Joined v w ∧ g.ClosedBefore w v

/-- The propagation leaves out every edge of a vertex that has some. -/
structure Stranded {α : Type} (g : Graph α) (v : VertexId) : Prop where
  leaves : ∃ w, g.Joined v w
  dropped : ∀ w, g.Joined v w → ¬g.ClosedBefore w v

/-- A forecast of the vertices in `scope` that is one at the ends and that the kept edges carry
over in full. -/
structure Carried (r : Graph Rat) (scope : VertexId → Prop) (f : VertexId → Rat) : Prop where
  onward : ∀ v w, scope v → r.Joined v w → scope w
  ends : ∀ v, scope v → (∀ w, ¬r.Joined v w) → f v = 1
  running : ∀ v w, scope v → r.Joined v w →
    f v = (r.tallyAt v).portion (r.includedSum v fun e => e.probability * f e.dest)

namespace Trained

variable {r : Graph Rat} {es : List Event} (hr : r.Trained es)

include hr

theorem included_pos {v : VertexId} {e : Edge Rat} (he : e ∈ r.edgesFrom v)
    (hclosed : r.ClosedBefore e.dest v) : 0 < (r.tallyAt v).included := by
  have hpos : ∀ f ∈ r.edgesFrom v, 0 < f.probability :=
    fun f hf => hr.probability_pos (mem_edgesFrom.mp hf).1
  rw [included_tallyAt]
  exact (hpos e he).trans_le (le_includedSum (fun f hf _ => (hpos f hf).le) he hclosed)

/-- As soon as one edge is kept, a portion is a share of the weight of the kept edges. -/
theorem portion_eq {v : VertexId} {e : Edge Rat} (he : e ∈ r.edgesFrom v)
    (hclosed : r.ClosedBefore e.dest v) (sum : Rat) :
    (r.tallyAt v).portion sum = min (sum / (r.tallyAt v).included) 1 := by
  rw [Tally.portion]
  cases hskipped : (r.tallyAt v).skipped with
  | true => rw [if_pos (by simpa using hr.included_pos he hclosed)]
  | false =>
      -- all edges are kept, and their weights add up to one
      have hall := closedBefore_of_not_skipped hskipped
      have hincluded : (r.tallyAt v).included = 1 := by
        rw [included_tallyAt, ← hr.sum_probability (List.ne_nil_of_mem he)]
        exact congrArg List.sum (List.map_congr_left fun f hf => if_pos (hall f hf))
      rw [hincluded, div_one]
      rfl

theorem portion_eq_one_iff {v : VertexId} {gain : Edge Rat → Rat}
    (hnonneg : ∀ e ∈ r.edgesFrom v, r.ClosedBefore e.dest v → gain e ≤ e.probability)
    {e : Edge Rat} (he : e ∈ r.edgesFrom v) (hclosed : r.ClosedBefore e.dest v) :
    (r.tallyAt v).portion (r.includedSum v gain) = 1 ↔
      ∀ e ∈ r.edgesFrom v, r.ClosedBefore e.dest v → gain e = e.probability := by
  have hpos := hr.included_pos he hclosed
  have hgap : ∀ e ∈ r.edgesFrom v, r.ClosedBefore e.dest v → 0 ≤ e.probability - gain e :=
    fun e he hclosed => sub_nonneg.mpr (hnonneg e he hclosed)
  have hle : r.includedSum v gain ≤ (r.tallyAt v).included := by
    have hsub := includedSum_nonneg hgap
    rw [includedSum_sub, ← included_tallyAt] at hsub
    exact sub_nonneg.mp hsub
  calc (r.tallyAt v).portion (r.includedSum v gain) = 1
      ↔ (r.tallyAt v).included ≤ r.includedSum v gain := by
        rw [hr.portion_eq he hclosed, min_eq_right_iff, one_le_div hpos]
    _ ↔ r.includedSum v (fun e => e.probability - gain e) = 0 := by
        rw [includedSum_sub, ← included_tallyAt, sub_eq_zero]
        exact ⟨fun h => le_antisymm h hle, fun h => h.le⟩
    _ ↔ ∀ e ∈ r.edgesFrom v, r.ClosedBefore e.dest v → gain e = e.probability := by
        rw [includedSum_eq_zero_iff hgap]
        simp only [sub_eq_zero, eq_comm]

/-- Nothing is left for a stranded vertex. -/
theorem portion_stranded {v : VertexId} (hv : r.Stranded v) (gain : Edge Rat → Rat) :
    (r.tallyAt v).portion (r.includedSum v gain) = 0 := by
  have hnone : ∀ e ∈ r.edgesFrom v, ¬r.ClosedBefore e.dest v := fun e he =>
    hv.dropped _ (hr.tallied.arranged.joined_of_mem he)
  have hzero : ∀ gain : Edge Rat → Rat, r.includedSum v gain = 0 := fun gain =>
    includedSum_eq_zero fun e he hclosed => absurd hclosed (hnone e he)
  rw [Tally.portion, included_tallyAt, hzero, hzero]
  simp

end Trained

namespace Carried

variable {r : Graph Rat} {es : List Event} {scope : VertexId → Prop} {f : VertexId → Rat}

theorem le_one (hf : r.Carried scope f) {v : VertexId} (hv : scope v) : f v ≤ 1 := by
  by_cases hjoined : ∃ w, r.Joined v w
  · obtain ⟨w, hw⟩ := hjoined
    rw [hf.running v w hv hw]
    exact min_le_right _ 1
  · exact (hf.ends v hv (not_exists.mp hjoined)).le

/-- The forecast is one at the vertices from which no stranded vertex can be reached along kept
edges, and at no others. -/
theorem eq_one_iff (hf : r.Carried scope f) (hr : r.Trained es) {v : VertexId} (hv : scope v) :
    f v = 1 ↔ ∀ w, Relation.ReflTransGen r.Kept v w → ¬r.Stranded w := by
  have hg := hr.tallied.arranged
  -- a kept edge leads to a vertex that was closed before
  induction v using hg.wellFounded_closedBefore.induction with
  | _ v ih =>
      by_cases hkept : ∃ w, r.Kept v w
      · obtain ⟨w, hjoined, hclosed⟩ := hkept
        obtain ⟨e, he, rfl⟩ := List.mem_map.mp (hg.mem_dests_iff.mpr hjoined)
        have hdest : ∀ e ∈ r.edgesFrom v, scope e.dest := fun e he =>
          hf.onward v _ hv (hg.joined_of_mem he)
        have hpos : ∀ e ∈ r.edgesFrom v, 0 < e.probability :=
          fun e he => hr.probability_pos (mem_edgesFrom.mp he).1
        rw [hf.running v e.dest hv hjoined, hr.portion_eq_one_iff
          (fun e he _ => mul_le_of_le_one_right (hpos e he).le (hf.le_one (hdest e he))) he hclosed]
        constructor
        · intro hall w hreach hstranded
          rcases Relation.ReflTransGen.cases_head hreach with rfl | ⟨u, hkept, hrest⟩
          · exact hstranded.dropped _ hjoined hclosed
          · obtain ⟨d, hd, rfl⟩ := List.mem_map.mp (hg.mem_dests_iff.mpr hkept.1)
            have hone : f d.dest = 1 :=
              (mul_eq_left₀ (hpos d hd).ne').mp (hall d hd hkept.2)
            exact (ih d.dest hkept.2 (hdest d hd)).mp hone w hrest hstranded
        · intro hall d hd hdclosed
          have hone : f d.dest = 1 := (ih d.dest hdclosed (hdest d hd)).mpr fun w hreach =>
            hall w (hreach.head ⟨hg.joined_of_mem hd, hdclosed⟩)
          rw [hone, mul_one]
      · -- without a kept edge the vertex is an end, or it is stranded itself
        have hdropped : ∀ w, r.Joined v w → ¬r.ClosedBefore w v := fun w hjoined hclosed =>
          hkept ⟨w, hjoined, hclosed⟩
        by_cases hjoined : ∃ w, r.Joined v w
        · obtain ⟨w, hw⟩ := hjoined
          have hstranded : r.Stranded v := ⟨⟨w, hw⟩, hdropped⟩
          rw [hf.running v w hv hw, hr.portion_stranded hstranded]
          exact ⟨fun h => absurd h zero_ne_one, fun h => absurd hstranded (h v .refl)⟩
        · refine ⟨fun _ w hreach hstranded => ?_, fun _ => hf.ends v hv (not_exists.mp hjoined)⟩
          rcases Relation.ReflTransGen.cases_head hreach with rfl | ⟨u, hu, -⟩
          · exact hjoined hstranded.leaves
          · exact hkept ⟨u, hu⟩

end Carried

/-! ## Keys of a workload -/

section Keys

variable {α : Type} [Weight α] {P : VertexKey → Prop} {g : Graph α}

theorem AllKeys.recompute (hg : g.AllKeys P) : (g.perform .recompute).AllKeys P := by
  show (g.recompute.toOption.getD g).AllKeys P
  cases h : g.recompute with
  | error fault => exact hg
  | ok k => exact hg.of_layout (layout_of_recompute h)

/-- What the keys of all learned visits have in common, the keys of all query vertices have. -/
theorem allKeys_performAll (cs : List Change) :
    ∀ {g : Graph α}, g.Marked → g.AllKeys P → (∀ c ∈ cs, c.Observes) →
      (∀ t estimator, .learn t estimator ∈ cs →
        ∀ visits ∈ (t.resolve g.procedure estimator).toOption, ∀ visit ∈ visits, P visit.key) →
      (g.performAll cs).AllKeys P := by
  induction cs with
  | nil => exact fun {_} _ hg _ _ => hg
  | cons c cs ih =>
      intro g hmarked hg hcs hkeys
      have hgrow := hmarked.perform_growth c
      have hstep : (g.perform c).AllKeys P := by
        cases hcs c List.mem_cons_self with
        | learn t estimator =>
            refine hg.learn fun visits hvisits => hkeys t estimator List.mem_cons_self visits ?_
            rw [hvisits]
            rfl
        | recompute => exact hg.recompute
        | resetCounters => exact hg.of_layout (layout_resetCounters g)
      refine ih (hgrow.marked hmarked) hstep (fun d hd => hcs d (List.mem_cons_of_mem _ hd)) ?_
      intro t estimator hmem
      rw [hgrow.procedure_eq]
      exact hkeys t estimator (List.mem_cons_of_mem _ hmem)

end Keys

def Confined (part : PartitionId) (key : VertexKey) : Prop :=
  key.partitions = .singleton part ∧ ∀ q ∈ key.past, q = part

theorem confined_of_itinerary {p : Procedure} {part : PartitionId} :
    ∀ {keys : List VertexKey} {past : PartitionSet} {counts : StatementId → Nat},
      Itinerary p past counts keys → (∀ q ∈ past, q = part) →
      (∀ key ∈ keys, key.partitions = .singleton part) → ∀ key ∈ keys, Confined part key
  | key :: keys, past, counts, ⟨_, hpast, _, hrest⟩, honly, hkeys, k, hk => by
      rcases List.mem_cons.mp hk with rfl | hk
      · exact ⟨hkeys k List.mem_cons_self, by rw [hpast]; exact honly⟩
      · refine confined_of_itinerary hrest (fun q hq => ?_)
          (fun l hl => hkeys l (List.mem_cons_of_mem _ hl)) k hk
        rcases (PartitionSet.mem_union q _ _).mp hq with hq | hq
        · exact honly q hq
        · rw [hkeys key List.mem_cons_self] at hq
          exact (PartitionSet.mem_singleton q part).mp hq

theorem Confined.size_touched_le {part : PartitionId} {key : VertexKey} (h : Confined part key) :
    (VertexState.query key).touched.size ≤ 1 := by
  have hsub : (VertexState.query key).touched.ids ⊆ [part] := by
    intro q hq
    rw [List.mem_singleton]
    rcases (PartitionSet.mem_union q _ _).mp hq with hq | hq
    · exact h.2 q hq
    · exact (PartitionSet.mem_singleton q part).mp (h.1 ▸ hq)
  exact (List.subperm_of_subset (PartitionSet.nodup_ids _) hsub).length_le

/-! ## Staying on the partition -/

/-- A step between query vertices touches the partition that has been touched. -/
theorem AllKeys.isSubset_touched {r : Graph Rat} {part : PartitionId}
    (hkeys : r.AllKeys (Confined part)) {v w : VertexId} {k l : VertexKey}
    (hv : r.state? v = some (.query k)) (hw : r.state? w = some (.query l)) :
    (r.stateOf w).partitions.isSubset (r.stateOf v).touched = true := by
  rw [stateOf, stateOf, hv, hw, PartitionSet.isSubset_iff]
  intro q hq
  have hl : (VertexState.query l).partitions = .singleton part := (hkeys w l hw).1
  have hk : (VertexState.query k).partitions = .singleton part := (hkeys v k hv).1
  rw [Option.getD_some, hl, ← hk] at hq
  exact (PartitionSet.mem_union q _ _).mpr (.inr hq)

namespace Trained

variable {r : Graph Rat} {es : List Event} (hr : r.Trained es)

include hr

theorem hits_pos_iff {v : VertexId} {x : Vertex Rat} (hx : r.vertex? v = some x) :
    0 < x.hits.total ↔ ∃ path ∈ learned es, v ∈ path := by
  rw [UInt64.lt_iff_toNat_lt, hr.total_vertex hx]
  show 0 < _ ↔ _
  rw [List.countP_pos_iff]
  simp

/-- Who has been passed and has no edge is a terminal marker. -/
theorem exists_terminal {v : VertexId} {path : List VertexId} (hpath : path ∈ learned es)
    (hv : v ∈ path) (hend : ∀ w, ¬r.Joined v w) : ∃ aborted, v = terminal aborted := by
  by_contra hrunning
  have hdrop := ((hr.tallied.routes path hpath).mem_dropLast_iff (not_exists.mp hrunning)).mpr hv
  rw [← map_fst_legs] at hdrop
  obtain ⟨l, hl, rfl⟩ := List.mem_map.mp hdrop
  exact hend l.2 ((hr.tallied.joined l.1 l.2).mpr ⟨path, hpath, hl⟩)

theorem passed_of_joined {v w : VertexId} (h : r.Joined v w) : ∃ path ∈ learned es, w ∈ path := by
  obtain ⟨path, hpath, hleg⟩ := (hr.tallied.joined v w).mp h
  exact ⟨path, hpath, (mem_of_mem_legs hleg).2⟩

theorem ne_start_of_joined {v w : VertexId} (h : r.Joined v w) : w ≠ Markers.fixed.start := by
  have hg := hr.tallied.marked
  rcases hr.query_or_terminal h with ⟨key, hkey⟩ | ⟨aborted, rfl⟩
  · exact hg.ne_start hr.tallied.seeded hkey
  · exact fun hstart => hg.ne_terminal hr.tallied.seeded (hg.start hr.tallied.seeded) rfl aborted
      hstart.symm

variable {part : PartitionId} (hkeys : r.AllKeys (Confined part))

include hkeys

theorem size_touched_le {v w : VertexId} (h : r.Joined v w) : (r.stateOf v).touched.size ≤ 1 := by
  obtain ⟨s, d, hs, -, hprecedes⟩ := hr.leads_of_joined h
  rw [stateOf, hs, Option.getD_some]
  cases s with
  | start => exact Nat.zero_le 1
  | query key => exact (hkeys v key hs).size_touched_le
  | commit => cases hprecedes.source
  | abort => cases hprecedes.source

theorem carried_singlePartition :
    r.Carried (fun v => ∃ path ∈ learned es, v ∈ path) fun v => (r.outlook v).singlePartition := by
  refine ⟨fun v w _ hjoined => hr.passed_of_joined hjoined, ?_, fun v w _ hjoined => ?_⟩
  · rintro v ⟨path, hpath, hv⟩ hend
    obtain ⟨aborted, rfl⟩ := hr.exists_terminal hpath hv hend
    rw [hr.outlook_terminal]
    rfl
  · obtain ⟨s, d, hs, -, hprecedes⟩ := hr.leads_of_joined hjoined
    obtain ⟨x, hx, rfl⟩ := Option.map_eq_some_iff.mp hs
    have hsize := hr.size_touched_le hkeys hjoined
    rw [stateOf_eq hx] at hsize
    rw [hr.outlook_eq_tally hx, if_neg (by simp [hprecedes.source]),
      Tally.singlePartition_forecast _ hsize, singlePartition_tallyAt]

theorem carried_noNewPartitions :
    r.Carried (fun v => (∃ path ∈ learned es, v ∈ path) ∧ v ≠ Markers.fixed.start)
      fun v => (r.outlook v).noNewPartitions := by
  refine ⟨fun v w _ hjoined => ⟨hr.passed_of_joined hjoined, hr.ne_start_of_joined hjoined⟩, ?_, ?_⟩
  · rintro v ⟨⟨path, hpath, hv⟩, -⟩ hend
    obtain ⟨aborted, rfl⟩ := hr.exists_terminal hpath hv hend
    rw [hr.outlook_terminal]
    rfl
  · rintro v w ⟨⟨path, hpath, hv⟩, hstart⟩ hjoined
    -- a vertex that is neither the start nor an end is a query vertex
    obtain ⟨mid, aborted, hshape, hquery⟩ := (hr.tallied.routes path hpath).shape
    have hmid : v ∈ mid := by
      have hne := hr.ne_terminal_of_joined hjoined aborted
      rw [hshape] at hv
      simpa [hstart, hne] using hv
    obtain ⟨key, hkey⟩ := hquery v hmid
    obtain ⟨x, hx, hstate⟩ := Option.map_eq_some_iff.mp hkey
    have hrunning : ¬x.state.kind.isTerminal = true := by
      rw [hstate]
      nofun
    rw [hr.outlook_eq_tally hx, if_neg hrunning, Tally.noNewPartitions_forecast,
      noNewPartitions_tallyAt]
    refine congrArg _ (includedSum_congr fun e he _ => ?_)
    rcases hr.query_or_terminal (hr.tallied.arranged.joined_of_mem he) with ⟨l, hl⟩ | ⟨ended, hend⟩
    · have hdest : (r.stateOf e.dest).kind.isTerminal = false := by
        rw [stateOf, hl]
        rfl
      rw [if_neg (by simp [hdest]), if_pos (hkeys.isSubset_touched hkey hl)]
    · rw [hend, if_pos (hr.isTerminal_terminal ended), hr.outlook_terminal]
      exact (mul_one _).symm

end Trained

/-- Learning traces all of whose queries touch one partition, in any orders: a vertex with hits
forecasts for sure that the transaction stays on it, and a query vertex that it touches nothing
new, if and only if no stranded vertex can be reached along the edges that the propagation keeps. -/
theorem stays_iff_not_stranded (p : Procedure) (s : ModelSettings Rat) (part : PartitionId)
    (ts : List (TransactionTrace × Estimator))
    (honly : ∀ t ∈ ts, ∀ visits ∈ (t.1.resolve p t.2).toOption, ∀ visit ∈ visits,
      visit.key.partitions = .singleton part)
    (hbound : (learned ((fresh p s).ledger (lessons ts))).length < UInt64.size)
    (hfit : ((fresh p s).performAll (lessons ts)).Fits) :
    let r := (fresh p s).performAll (lessons ts ++ [Change.recompute])
    ∀ v x, r.vertex? v = some x → 0 < x.hits.total →
      (x.forecast.singlePartition = 1 ↔
        ∀ w, Relation.ReflTransGen r.Kept v w → ¬r.Stranded w) ∧
      (x.state.isQuery = true →
        (x.forecast.noNewPartitions = 1 ↔
          ∀ w, Relation.ReflTransGen r.Kept v w → ¬r.Stranded w)) := by
  intro r v x hx hhits
  have hr := trained_lessons p s ts hbound hfit
  have hkeys : r.AllKeys (Confined part) := by
    refine allKeys_performAll _ (tallied_fresh p s).marked (allKeys_fresh p s) ?_ ?_
    · intro c hc
      rcases List.mem_append.mp hc with hc | hc
      · exact (trains_lessons ts c hc).observes
      · rw [List.mem_singleton.mp hc]
        exact .recompute
    · intro t estimator hmem visits hvisits visit hvisit
      rcases List.mem_append.mp hmem with hmem | hmem
      · obtain ⟨t', ht', heq⟩ := List.mem_map.mp hmem
        cases heq
        have hresolve : t'.1.resolve p t'.2 = .ok visits := eq_ok_of_toOption hvisits
        refine confined_of_itinerary (itinerary_of_resolve hresolve) (by simp) ?_ _
          (List.mem_map_of_mem hvisit)
        intro key hkey
        obtain ⟨w, hw, rfl⟩ := List.mem_map.mp hkey
        exact honly t' ht' visits hvisits w hw
      · cases List.mem_singleton.mp hmem
  have hpassed := (hr.hits_pos_iff hx).mp hhits
  rw [← outlook_eq hx]
  refine ⟨(hr.carried_singlePartition hkeys).eq_one_iff hr hpassed, fun hquery => ?_⟩
  obtain ⟨key, hkey⟩ := x.state.isQuery_iff.mp hquery
  have hstart := hr.tallied.marked.ne_start hr.tallied.seeded ((state?_eq hx).trans (by rw [hkey]))
  exact (hr.carried_noNewPartitions hkeys).eq_one_iff hr ⟨hpassed, hstart⟩

/-- Two transactions on partition zero. The second one runs the statements of the first in another
order, and the last edge of its path closes a cycle. -/
def entangled : List (TransactionTrace × Estimator) :=
  [(transferTrace 1 false [10, 10, 11], .recorded),
    (transferTrace 2 false [10, 11, 11, 10], .recorded)]

/-- The graph of `entangled`. Its vertex ⟨6⟩ is the second run of statement 11. -/
def entangledGraph : Graph Rat :=
  (fresh transfer .standard).performAll (lessons entangled ++ [Change.recompute])

theorem onlyZero_entangled : ∀ t ∈ entangled, ∀ visits ∈ (t.1.resolve transfer t.2).toOption,
    ∀ visit ∈ visits, visit.key.partitions = .singleton ⟨0⟩ := by
  decide +kernel

/-- A query vertex with hits, on a workload that touches one partition, which forecasts for sure
that the transaction leaves it. -/
theorem leaves_entangled :
    (∀ t ∈ entangled, ∀ visits ∈ (t.1.resolve transfer t.2).toOption, ∀ visit ∈ visits,
        visit.key.partitions = .singleton ⟨0⟩) ∧
      (learned ((fresh transfer (.standard : ModelSettings Rat)).ledger
        (lessons entangled))).length = entangled.length ∧
      ∃ x, entangledGraph.vertex? ⟨6⟩ = some x ∧ x.state.isQuery = true ∧ 0 < x.hits.total ∧
        x.forecast.singlePartition = 0 ∧ x.forecast.noNewPartitions = 0 := by
  have hvertex : (entangledGraph.vertex? ⟨6⟩).any (fun x => x.state.isQuery &&
      decide (0 < x.hits.total) && decide (x.forecast.singlePartition = 0) &&
        decide (x.forecast.noNewPartitions = 0)) = true := by decide +kernel
  obtain ⟨x, hx, hall⟩ := (Option.any_eq_true _ _).mp hvertex
  simp only [Bool.and_eq_true, decide_eq_true_eq] at hall
  obtain ⟨⟨⟨hquery, hhits⟩, hsingle⟩, hnoNew⟩ := hall
  exact ⟨onlyZero_entangled, by decide +kernel, x, hx, hquery, hhits, hsingle, hnoNew⟩

/-- The first vertex of both transactions is less than sure, so a stranded vertex is ahead. -/
theorem stays_iff_not_stranded_entangled :
    ∃ w, Relation.ReflTransGen entangledGraph.Kept ⟨3⟩ w ∧ entangledGraph.Stranded w := by
  have hlength : (learned ((fresh transfer (.standard : ModelSettings Rat)).ledger
      (lessons entangled))).length = 2 := by decide +kernel
  have hfit :
      ((fresh transfer (.standard : ModelSettings Rat)).performAll (lessons entangled)).Fits :=
    ⟨by decide +kernel, by decide +kernel⟩
  have hvertex : (entangledGraph.vertex? ⟨3⟩).any (fun x =>
      decide (0 < x.hits.total) && decide (x.forecast.singlePartition = 5 / 8)) = true := by
    decide +kernel
  obtain ⟨x, hx, hall⟩ := (Option.any_eq_true _ _).mp hvertex
  simp only [Bool.and_eq_true, decide_eq_true_eq] at hall
  obtain ⟨hhits, hforecast⟩ := hall
  have hiff := (stays_iff_not_stranded transfer .standard ⟨0⟩ entangled onlyZero_entangled
    (by rw [hlength]; decide) hfit ⟨3⟩ x hx hhits).1
  have hne : ¬x.forecast.singlePartition = 1 := by
    rw [hforecast]
    norm_num
  by_contra hnone
  exact hne (hiff.mpr fun w hreach hstranded => hnone ⟨w, hreach, hstranded⟩)

end Graph

end PathForecast
