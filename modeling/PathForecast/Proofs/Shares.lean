import Mathlib
import PathForecast.Proofs.ForecastSums

/-!
# Forecasts and observed shares

The probability of an edge is a share of all transactions at its source, wherever they came from, so
a product of such probabilities is not the share of any one path. Summed over all transactions the
errors cancel: along the path of a transaction the prospect of an outcome changes by gains, and at
every vertex the gains of the transactions that pass it add up to nothing. Main statements:
`Trained.countP_learned`, the prospect at the start marker is the share of the transactions with
that outcome, and `start_forecast_eq_share`, what that says about the forecasts.
-/

set_option autoImplicit false

namespace PathForecast

open Ledger

/-! ## Sums over lists -/

theorem sum_map_of_subset {β : Type} [DecidableEq β] {l m : List β} (hl : l.Nodup) (hm : m.Nodup)
    (hsub : m ⊆ l) (f : β → Rat) :
    (m.map f).sum = (l.map fun b => if b ∈ m then f b else 0).sum := by
  have hperm : (l.filter fun b => b ∈ m).Perm m := by
    refine (List.perm_ext_iff_of_nodup (hl.filter _) hm).mpr fun b => ?_
    rw [List.mem_filter, decide_eq_true_eq]
    exact and_iff_right_of_imp fun hb => hsub hb
  rw [List.sum_map_ite, ← (hperm.map f).sum_eq]
  simp

/-- Summing over pairs, a term for each of them or none. -/
theorem sum_map_sum_ite {β γ : Type} (R : β → γ → Bool) (f : γ → Rat) (l : List β)
    (m : List γ) :
    (l.map fun b => (m.map fun c => if R b c then f c else 0).sum).sum =
      (m.map fun c => (l.countP (R · c) : Rat) * f c).sum := by
  induction l with
  | nil => simp
  | cons b l ih =>
      rw [List.map_cons, List.sum_cons, ih, ← List.sum_map_add]
      refine congrArg List.sum (List.map_congr_left fun c _ => ?_)
      rw [List.countP_cons]
      split
      · push_cast
        ring
      · simp

theorem sum_map_ite_sub {β : Type} (φ : β → Bool) (a : Rat) (l : List β) :
    (l.map fun b => (if φ b then 1 else 0) - a).sum = l.countP φ - l.length * a := by
  induction l with
  | nil => simp
  | cons b l ih =>
      rw [List.map_cons, List.sum_cons, ih, List.countP_cons, List.length_cons]
      split
      · push_cast
        ring
      · push_cast
        ring

/-- A sum is nothing if the terms of each key add up to nothing. -/
theorem sum_eq_zero_of_fibers {β κ : Type} [DecidableEq κ] {l : List β} (hl : l.Nodup)
    (key : β → κ) (f : β → Rat)
    (h : ∀ k, ((l.filter fun b => key b = k).map f).sum = 0) : (l.map f).sum = 0 := by
  classical
  have hmaps : ∀ b ∈ l.toFinset, key b ∈ l.toFinset.image key :=
    fun b hb => Finset.mem_image_of_mem key hb
  rw [← List.sum_toFinset f hl, ← Finset.sum_fiberwise_of_maps_to hmaps]
  apply Finset.sum_eq_zero
  intro k _
  rw [← h k, ← List.sum_toFinset f (hl.filter _), List.toFinset_filter]
  simp only [decide_eq_true_eq]

namespace Graph

/-! ## Prospects -/

/-- The probability that a transaction at a vertex meets an outcome, which is told by the
partitions that it has touched in the end and by the marker that it ends in. -/
noncomputable def prospect (g : Graph Rat) (φ : PartitionSet → Option VertexId → Bool)
    (v : VertexId) : Rat :=
  g.pathSum v fun path => φ (g.touchedAlong v path) path.getLast? = true

/-- The prospect of a transaction that has decided for a leg and has not taken it yet. -/
noncomputable def prospectOn (g : Graph Rat) (φ : PartitionSet → Option VertexId → Bool)
    (l : VertexId × VertexId) : Rat :=
  g.pathSum l.2 fun path => φ (g.touchedAlong l.1 (l.1 :: path)) (l.1 :: path).getLast? = true

namespace Trained

variable {r : Graph Rat} {es : List Event} (hr : r.Trained es)

include hr

theorem pathFrom_of_learned {path : List VertexId} (hpath : path ∈ learned es) :
    r.PathFrom Markers.fixed.start path := by
  obtain ⟨mid, aborted, rfl, -⟩ := (hr.tallied.routes path hpath).shape
  refine ⟨rfl, fun l hl => (hr.tallied.joined l.1 l.2).mpr ⟨_, hpath, hl⟩, aborted, ?_⟩
  rw [List.getLast?_concat]

/-- What is summed over the legs of all transactions is summed over the edges, each as often as it
has been taken. -/
theorem sum_legs (f : VertexId × VertexId → Rat) :
    ((learned es).map fun path => ((legs path).map f).sum).sum =
      (r.edges.toList.map fun e => (e.hits.total.toNat : Rat) * f e.pair).sum := by
  have hpath : ∀ path ∈ learned es, ((legs path).map f).sum =
      (r.edges.toList.map fun e => if decide (e.pair ∈ legs path) then f e.pair else 0).sum := by
    intro path hpath
    have hroute := hr.tallied.routes path hpath
    have hsubset : legs path ⊆ r.edges.toList.map (·.pair) := by
      apply hr.tallied.legs_subset
      exact hpath
    rw [sum_map_of_subset hr.tallied.arranged.nodup_pairs (nodup_legs hroute.nodup) hsubset,
      List.map_map]
    refine congrArg List.sum (List.map_congr_left fun e _ => ?_)
    by_cases he : e.pair ∈ legs path
    · simp [he]
    · simp [he]
  rw [List.map_congr_left hpath, sum_map_sum_ite (fun path (e : Edge Rat) => e.pair ∈ legs path)
    fun e => f e.pair]
  refine congrArg List.sum (List.map_congr_left fun e he => ?_)
  rw [hr.total_edge (Array.mem_toList_iff.mp he)]

variable (hacyclic : r.Acyclic) (φ : PartitionSet → Option VertexId → Bool)

include hacyclic

/-- The prospect of a vertex is the mean of those of its edges. -/
theorem prospect_eq {v : VertexId} (hv : ∀ aborted, v ≠ terminal aborted) :
    r.prospect φ v =
      ((r.edgesFrom v).map fun e => e.probability * r.prospectOn φ (v, e.dest)).sum :=
  pathSum_eq hr.tallied.arranged hacyclic hr.endsClosed hv _

/-- All transactions that pass a vertex, taken together, gain nothing there. -/
theorem sum_gains_at (v : VertexId) :
    ((r.edgesFrom v).map fun e =>
      (e.hits.total.toNat : Rat) * (r.prospectOn φ e.pair - r.prospect φ e.pair.1)).sum = 0 := by
  by_cases hnone : r.edgesFrom v = []
  · rw [hnone]
    rfl
  · obtain ⟨e, he⟩ := List.exists_mem_of_ne_nil _ hnone
    obtain ⟨hmem, hsource⟩ := mem_edgesFrom.mp he
    obtain ⟨x, hx, -⟩ := hr.exists_source hmem
    have hne := hr.source_ne_zero hmem hx
    rw [hsource] at hx
    have hv := hr.ne_terminal_of_joined (hr.tallied.arranged.joined_of_mem he)
    have hterm : ∀ f ∈ r.edgesFrom v,
        (f.hits.total.toNat : Rat) * (r.prospectOn φ f.pair - r.prospect φ f.pair.1) =
          (f.probability * r.prospectOn φ (v, f.dest) + f.probability * -r.prospect φ v) *
            x.hits.total.toNat := by
      intro f hf
      obtain ⟨hfmem, rfl⟩ := mem_edgesFrom.mp hf
      have hzero : (x.hits.total.toNat : Rat) ≠ 0 := by
        intro hzero
        exact hne (UInt64.toNat_inj.mp (by exact_mod_cast hzero))
      have hhits : (f.hits.total.toNat : Rat) = f.probability * x.hits.total.toNat := by
        rw [hr.probability_eq hfmem hx, div_mul_cancel₀ _ hzero]
      rw [hhits, Edge.pair]
      ring
    rw [List.map_congr_left hterm, List.sum_map_mul_right, List.sum_map_add,
      List.sum_map_mul_right, ← hr.prospect_eq hacyclic φ hv, hr.sum_probability hnone]
    ring

/-- A transaction that has decided to end has met the outcome or not. -/
theorem prospectOn_terminal (v : VertexId) (aborted : Bool) :
    r.prospectOn φ (v, terminal aborted) =
      if φ (r.touchedAlong v [v, terminal aborted]) (some (terminal aborted)) then 1 else 0 := by
  split
  · next h => exact pathSum_terminal hr.tallied.arranged hacyclic hr.endsClosed aborted h
  · next h =>
      -- the marker alone is the only path from it
      apply pathSum_eq_zero
      intro path hpath
      rw [hr.mem_pathsFrom_terminal hacyclic hpath]
      exact h

section Query

variable (hpast : r.settings.usePastPartitions = true) {v w : VertexId} (h : r.Joined v w)
  {key : VertexKey} (hkey : r.state? w = some (.query key))

include hpast h hkey

omit hacyclic in
/-- The past of a query vertex is what was touched before it. -/
theorem touchedAlong_query (path : List VertexId) :
    r.touchedAlong v (v :: w :: path) = r.touchedAlong w (w :: path) := by
  show List.foldl _ ((r.stateOf v).touched ∪ (r.stateOf w).partitions) path =
    List.foldl _ (r.stateOf w).touched path
  rw [hr.touched_of_joined hpast h hkey]

/-- A transaction that has decided for a query vertex is as good as there. -/
theorem prospectOn_query : r.prospectOn φ (v, w) = r.prospect φ w := by
  apply pathSum_congr
  intro path hpath
  obtain ⟨tail, rfl⟩ := hr.mem_pathsFrom hacyclic hpath
  rw [hr.touchedAlong_query hpast h hkey, List.getLast?_cons_cons]

end Query

/-- Along a path the gains add up to what has become of the transaction. -/
theorem sum_gains (hpast : r.settings.usePastPartitions = true) (rest : List VertexId) :
    ∀ {v w : VertexId}, r.PathFrom v (v :: w :: rest) →
      ((legs (v :: w :: rest)).map fun l => r.prospectOn φ l - r.prospect φ l.1).sum =
        (if φ (r.touchedAlong v (v :: w :: rest)) (v :: w :: rest).getLast? then 1 else 0) -
          r.prospect φ v := by
  induction rest with
  | nil =>
      intro v w hpath
      obtain ⟨aborted, hend⟩ := hpath.ends
      obtain rfl : w = terminal aborted := by simpa using hend
      simp [hr.prospectOn_terminal hacyclic φ v aborted]
  | cons u rest ih =>
      intro v w hpath
      have hvw : r.Joined v w := hpath.joined (v, w) List.mem_cons_self
      have hwu : r.Joined w u := hpath.joined (w, u) (List.mem_cons_of_mem _ List.mem_cons_self)
      obtain ⟨key, hkey⟩ : ∃ key, r.state? w = some (.query key) := by
        rcases hr.query_or_terminal hvw with hquery | ⟨aborted, hterminal⟩
        · exact hquery
        · exact absurd hterminal (hr.ne_terminal_of_joined hwu aborted)
      have hrest : r.PathFrom w (w :: u :: rest) := by
        refine ⟨rfl, fun l hl => hpath.joined l (List.mem_cons_of_mem _ hl), ?_⟩
        obtain ⟨aborted, hend⟩ := hpath.ends
        exact ⟨aborted, by rwa [List.getLast?_cons_cons] at hend⟩
      have hlast : (v :: w :: u :: rest).getLast? = (w :: u :: rest).getLast? :=
        List.getLast?_cons_cons
      -- the gains on the way to `w` are what is left between the prospects of `v` and `w`
      rw [legs_cons_cons, List.map_cons, List.sum_cons, ih hrest,
        hr.prospectOn_query hacyclic φ hpast hvw hkey, hr.touchedAlong_query hpast hvw hkey, hlast]
      ring

/-- The prospect at the start marker is the share of the learned transactions that met the
outcome. -/
theorem countP_learned (hpast : r.settings.usePastPartitions = true) :
    ((learned es).countP fun path =>
        φ (r.touchedAlong Markers.fixed.start path) path.getLast? : Rat) =
      (learned es).length * r.prospect φ Markers.fixed.start := by
  have hpath : ∀ path ∈ learned es,
      ((legs path).map fun l => r.prospectOn φ l - r.prospect φ l.1).sum =
        (if φ (r.touchedAlong Markers.fixed.start path) path.getLast? then 1 else 0) -
          r.prospect φ Markers.fixed.start := by
    intro path hpath
    have hfrom := hr.pathFrom_of_learned hpath
    obtain ⟨mid, aborted, hshape, -⟩ := (hr.tallied.routes path hpath).shape
    rw [List.cons_append] at hshape
    rw [hshape] at hfrom ⊢
    cases mid with
    | nil => exact hr.sum_gains hacyclic φ hpast [] hfrom
    | cons w mid => exact hr.sum_gains hacyclic φ hpast _ hfrom
  have hzero : ((learned es).map fun path =>
      ((legs path).map fun l => r.prospectOn φ l - r.prospect φ l.1).sum).sum = 0 := by
    rw [hr.sum_legs]
    exact sum_eq_zero_of_fibers hr.tallied.arranged.nodup_edges (·.source) _
      (hr.sum_gains_at hacyclic φ)
  rw [List.map_congr_left hpath, sum_map_ite_sub] at hzero
  linarith

end Trained

end Graph

/-! ## Traces and their paths -/

/-- The partitions that the queries of a trace touch together, none if the trace is refused. -/
def TransactionTrace.footprint (t : TransactionTrace) (p : Procedure) (estimator : Estimator) :
    PartitionSet :=
  match t.resolve p estimator with
  | .ok visits => visits.foldl (fun s visit => s ∪ visit.key.partitions) ∅
  | .error _ => ∅

theorem PartitionSet.mem_foldl_union {β : Type} (parts : β → PartitionSet) (p : PartitionId)
    (l : List β) : ∀ s : PartitionSet,
      p ∈ l.foldl (fun s b => s ∪ parts b) s ↔ p ∈ s ∨ ∃ b ∈ l, p ∈ parts b := by
  induction l with
  | nil => simp
  | cons b l ih =>
      intro s
      rw [List.foldl_cons, ih, PartitionSet.mem_union]
      simp [or_assoc]

theorem countP_eq_of_forall₂ {β γ : Type} {R : β → γ → Prop} {φ : β → Bool} {ψ : γ → Bool}
    (hR : ∀ b c, R b c → φ b = ψ c) {l : List β} {m : List γ} (h : List.Forall₂ R l m) :
    l.countP φ = m.countP ψ := by
  induction h with
  | nil => rfl
  | cons hbc _ ih => rw [List.countP_cons, List.countP_cons, ih, hR _ _ hbc]

namespace Graph

variable {α : Type}

/-- A path runs through the identities of an accepted trace to the marker in which it ended. -/
def Traces (g : Graph α) (path : List VertexId) (t : TransactionTrace × Estimator) : Prop :=
  ∃ visits mid, t.1.resolve g.procedure t.2 = .ok visits ∧
    path = Markers.fixed.start :: mid ++ [terminal t.1.aborted] ∧
    List.Forall₂ g.Holds mid (visits.map (·.key))

theorem Traces.getLast? {g : Graph α} {path : List VertexId} {t : TransactionTrace × Estimator}
    (h : g.Traces path t) : path.getLast? = some (terminal t.1.aborted) := by
  obtain ⟨_, mid, -, rfl, -⟩ := h
  exact List.getLast?_concat

theorem foldl_partitions {g : Graph α} {mid : List VertexId} {keys : List VertexKey}
    (h : List.Forall₂ g.Holds mid keys) : ∀ s : PartitionSet,
      mid.foldl (fun s w => s ∪ (g.stateOf w).partitions) s =
        keys.foldl (fun s key => s ∪ key.partitions) s := by
  induction h with
  | nil => exact fun _ => rfl
  | @cons v key _ _ hv _ ih =>
      intro s
      obtain ⟨k, hk, hsame⟩ := hv.query
      have hpartitions : (g.stateOf v).partitions = key.partitions := by
        rw [stateOf, hk]
        exact ((k.same_iff key _).mp hsame).2.1
      rw [List.foldl_cons, List.foldl_cons, hpartitions, ih]

/-- What a path of a trace touches is what the trace touches. -/
theorem Traces.touchedAlong {g : Graph α} (hg : g.Marked) (hseeded : g.seeded = true)
    {path : List VertexId} {t : TransactionTrace × Estimator} (h : g.Traces path t) :
    g.touchedAlong Markers.fixed.start path = t.1.footprint g.procedure t.2 := by
  obtain ⟨visits, mid, hresolve, rfl, hholds⟩ := h
  have hstart : (g.stateOf Markers.fixed.start).touched = ∅ := by
    rw [stateOf, hg.start hseeded]
    decide
  have hend : ∀ s : PartitionSet, s ∪ (g.stateOf (terminal t.1.aborted)).partitions = s := by
    intro s
    rw [hg.partitions_terminal hseeded]
    rfl
  rw [Graph.touchedAlong, List.cons_append, List.tail_cons, List.foldl_append, hstart,
    foldl_partitions hholds, TransactionTrace.footprint, hresolve, List.foldl_map]
  exact hend _

variable [Weight α]

theorem Growth.traces {g k : Graph α} (h : Growth g k) {path : List VertexId}
    {t : TransactionTrace × Estimator} (hg : g.Traces path t) : k.Traces path t := by
  obtain ⟨visits, mid, hresolve, hpath, hholds⟩ := hg
  refine ⟨visits, mid, ?_, hpath, hholds.imp fun _ _ => h.holds⟩
  rw [h.procedure_eq]
  exact hresolve

theorem traces_walk {g : Graph α} (hg : g.Marked) (h : g.seeded = true)
    {t : TransactionTrace × Estimator} {visits : List Visit}
    (hvisits : t.1.resolve g.procedure t.2 = .ok visits) (hfit : (g.walk t.1 visits).1.Fits) :
    (g.walk t.1 visits).1.Traces (g.walk t.1 visits).2 t := by
  have hdeclared : ∀ visit ∈ visits, g.procedure.declares visit.key.statement = true :=
    fun visit hmem => (itinerary_of_resolve hvisits).declares _ (List.mem_map_of_mem hmem)
  have hleave := growth_leave hg h t.1 hdeclared
  have hholds := holds_followAll t.1.sampleKey visits (hg.ready_enter h t.1 hdeclared)
    (hleave.fits hfit)
  refine ⟨visits, (g.followed t.1 visits).2, ?_, rfl, hholds.imp fun _ _ => hleave.holds⟩
  rw [(growth_walk hg h t.1 hdeclared).procedure_eq]
  exact hvisits

theorem traces_of_learn {g k : Graph α} (hg : g.Marked) {t : TransactionTrace}
    {estimator : Estimator} {path : List VertexId} (h : g.learn t estimator = .ok (k, path))
    (hfit : k.Fits) : k.Traces path (t, estimator) := by
  obtain ⟨hseeded, visits, hvisits, heq⟩ := (learn_eq_ok_iff g t estimator (k, path)).mp h
  have hk : k = (g.walk t visits).1 := congrArg Prod.fst heq
  have hpath : path = (g.walk t visits).2 := congrArg Prod.snd heq
  subst hk hpath
  exact traces_walk (t := (t, estimator)) hg hseeded hvisits hfit

/-- The learned paths are those of the traces, one for each, if all of them are accepted. -/
theorem forall₂_learned (ts : List (TransactionTrace × Estimator)) :
    ∀ {g : Graph α}, g.Marked → g.seeded = true →
      (∀ t ∈ ts, ∃ visits, t.1.resolve g.procedure t.2 = .ok visits) →
      (g.performAll (lessons ts)).Fits →
      List.Forall₂ (g.performAll (lessons ts)).Traces (learned (g.ledger (lessons ts))) ts := by
  induction ts with
  | nil => exact fun _ _ _ _ => .nil
  | cons t ts ih =>
      intro g hg h haccepted hfit
      obtain ⟨visits, hvisits⟩ := haccepted t List.mem_cons_self
      have hlearn : g.learn t.1 t.2 = .ok (g.walk t.1 visits) :=
        (learn_eq_ok_iff g t.1 t.2 _).mpr ⟨h, visits, hvisits, rfl⟩
      have hstep : g.perform (.learn t.1 t.2) = (g.walk t.1 visits).1 := perform_of_learn hlearn
      have hgrow : Growth g (g.walk t.1 visits).1 := growth_learn hg hlearn
      have hledger : learned (g.ledger (lessons (t :: ts))) = (g.walk t.1 visits).2 ::
          learned ((g.walk t.1 visits).1.ledger (lessons ts)) := by
        show learned ((g.event? (.learn t.1 t.2)).toList ++
          (g.perform (.learn t.1 t.2)).ledger (lessons ts)) = _
        rw [hstep, event?, hlearn, learned_append]
        rfl
      have hrest : g.performAll (lessons (t :: ts)) =
          (g.walk t.1 visits).1.performAll (lessons ts) := by
        rw [← hstep]
        rfl
      rw [hrest] at hfit ⊢
      rw [hledger]
      have hlater := growth_performAll (lessons ts) (hgrow.marked hg)
      refine .cons (hlater.traces (traces_walk hg h hvisits (hlater.fits hfit))) ?_
      refine ih (hgrow.marked hg) (hgrow.seeded_of_seeded h) (fun u hu => ?_) hfit
      rw [hgrow.procedure_eq]
      exact haccepted u (List.mem_cons_of_mem _ hu)

/-! ## Forecasts at the start marker -/

theorem Trained.prospect_start {r : Graph Rat} {es : List Event} (hr : r.Trained es)
    (hacyclic : r.Acyclic) (hpast : r.settings.usePastPartitions = true)
    {ts : List (TransactionTrace × Estimator)} (hne : ts ≠ [])
    (htraces : List.Forall₂ r.Traces (learned es) ts)
    (φ : PartitionSet → Option VertexId → Bool) (ψ : TransactionTrace × Estimator → Bool)
    (h : ∀ t : TransactionTrace × Estimator,
      φ (t.1.footprint r.procedure t.2) (some (terminal t.1.aborted)) = ψ t) :
    r.prospect φ Markers.fixed.start = (ts.countP ψ : Rat) / ts.length := by
  have hcount : (learned es).countP (fun path =>
      φ (r.touchedAlong Markers.fixed.start path) path.getLast?) = ts.countP ψ := by
    refine countP_eq_of_forall₂ (fun path t ht => ?_) htraces
    rw [ht.touchedAlong hr.tallied.marked hr.tallied.seeded, ht.getLast?]
    exact h t
  have hlength : (ts.length : Rat) ≠ 0 := by
    rw [Nat.cast_ne_zero]
    exact fun hzero => hne (List.length_eq_zero_iff.mp hzero)
  rw [eq_div_iff hlength, ← hcount, hr.countP_learned hacyclic φ hpast, htraces.length_eq, mul_comm]

/-- In a graph without directed cycles that has learned a list of accepted traces and recomputed,
the forecasts of the start marker are shares of the traces: those that aborted, those whose queries
touch at most one partition, and for every partition those that never touch it. -/
theorem start_forecast_eq_share (p : Procedure) (s : ModelSettings Rat)
    (hpast : s.usePastPartitions = true) (ts : List (TransactionTrace × Estimator))
    (hne : ts ≠ []) (haccepted : ∀ t ∈ ts, ∃ visits, t.1.resolve p t.2 = .ok visits)
    (hbound : ts.length < UInt64.size) (hfit : ((fresh p s).performAll (lessons ts)).Fits)
    (hacyclic : ((fresh p s).performAll (lessons ts ++ [Change.recompute])).Acyclic) :
    let g := (fresh p s).performAll (lessons ts ++ [Change.recompute])
    ∃ x, g.vertex? Markers.fixed.start = some x ∧
      x.forecast.abort = (ts.countP fun t => t.1.aborted : Rat) / ts.length ∧
      x.forecast.singlePartition =
        (ts.countP fun t => (t.1.footprint p t.2).size ≤ 1 : Rat) / ts.length ∧
      ∀ q ∈ g.partitions, x.forecast.done.get? q =
        some ((ts.countP fun t => q ∉ t.1.footprint p t.2 : Rat) / ts.length) := by
  intro g
  have hfresh := tallied_fresh p s
  have hlearned := forall₂_learned ts hfresh.marked hfresh.seeded haccepted hfit
  have hr : g.Trained _ :=
    trained_lessons p s ts (by rw [hlearned.length_eq]; exact hbound) hfit
  -- the recompute leaves the paths where they are
  have hgrow : Growth ((fresh p s).performAll (lessons ts)) g :=
    growth_performAll_append hfresh.marked _ _
  have htraces : List.Forall₂ g.Traces
      (learned ((fresh p s).ledger (lessons ts ++ [Change.recompute]))) ts := by
    rw [learned_ledger_recompute]
    exact hlearned.imp fun _ _ => hgrow.traces
  have hprocedure : g.procedure = p := (growth_performAll _ hfresh.marked).procedure_eq
  have husepast : g.settings.usePastPartitions = true := by
    rw [settings_performAll]
    exact hpast
  obtain ⟨x, hx, hstate⟩ := Option.map_eq_some_iff.mp (hr.tallied.marked.start hr.tallied.seeded)
  have hforetold : g.Foretold Markers.fixed.start :=
    hr.foretold hacyclic husepast _ (.inl ⟨x, hx, by rw [hstate]; rfl⟩)
  have hshare := hr.prospect_start hacyclic husepast hne htraces
  rw [hprocedure] at hshare
  refine ⟨x, hx, ?_, ?_, fun q hq => ?_⟩
  · rw [← outlook_eq hx, hforetold.abort, ← hshare
      (fun _ last => last = some Markers.fixed.abort) _ fun t => ?_]
    · exact pathSum_congr fun path _ => by simp
    · cases t.1.aborted <;> rfl
  · rw [← outlook_eq hx, hforetold.singlePartition, ← hshare
      (fun touched _ => touched.size ≤ 1) _ fun t => rfl]
    exact pathSum_congr fun path _ => by simp
  · rw [← outlook_eq hx, hforetold.done q hq, ← hshare
      (fun touched _ => q ∉ touched) _ fun t => rfl]
    have hstart : (g.stateOf Markers.fixed.start).touched = ∅ := by
      rw [stateOf_eq hx, hstate]
      decide
    refine congrArg some (pathSum_congr fun path _ => ?_)
    rw [decide_eq_true_eq, Graph.touchedAlong, PartitionSet.mem_foldl_union, hstart]
    simp

/-- Three transactions that begin in the same way: one stays on its partition, one goes on to
another and aborts, and one goes on to both. -/
def spreading : List (TransactionTrace × Estimator) :=
  [(⟨⟨1⟩, ⟨1⟩, 0, 9, false, some ⟨0⟩, [⟨⟨10⟩, 1, 2, none⟩, ⟨⟨11⟩, 3, 4, none⟩]⟩, .recorded),
    (⟨⟨2⟩, ⟨1⟩, 0, 9, true, some ⟨0⟩,
      [⟨⟨10⟩, 1, 2, none⟩, ⟨⟨12⟩, 3, 4, some (.singleton ⟨1⟩)⟩]⟩, .recorded),
    (⟨⟨3⟩, ⟨1⟩, 0, 9, false, some ⟨0⟩,
      [⟨⟨10⟩, 1, 2, none⟩, ⟨⟨12⟩, 3, 4, some (.ofList [⟨0⟩, ⟨1⟩])⟩]⟩, .recorded)]

theorem start_forecast_eq_share_spreading :
    let g := (fresh transfer (.standard : ModelSettings Rat)).performAll
      (lessons spreading ++ [Change.recompute])
    g.Acyclic ∧ ∃ x, g.vertex? Markers.fixed.start = some x ∧ x.forecast.abort = 1 / 3 ∧
      x.forecast.singlePartition = 1 / 3 ∧ x.forecast.done.get? ⟨1⟩ = some (1 / 3) := by
  intro g
  have haccepted : ∀ t ∈ spreading, ∃ visits, t.1.resolve transfer t.2 = .ok visits := by
    have hsome : ∀ t ∈ spreading, (t.1.resolve transfer t.2).toOption.isSome = true := by
      decide +kernel
    intro t ht
    obtain ⟨visits, hvisits⟩ := Option.isSome_iff_exists.mp (hsome t ht)
    exact ⟨visits, eq_ok_of_toOption hvisits⟩
  have hlength : (learned ((fresh transfer (.standard : ModelSettings Rat)).ledger
      (lessons spreading))).length = 3 := by decide +kernel
  have hfit :
      ((fresh transfer (.standard : ModelSettings Rat)).performAll (lessons spreading)).Fits :=
    ⟨by decide +kernel, by decide +kernel⟩
  have hr : g.Trained _ :=
    trained_lessons transfer .standard spreading (by rw [hlength]; decide) hfit
  have hacyclic : g.Acyclic := by
    -- the terminal markers come last
    refine hr.tallied.arranged.acyclic_of_rank
      (fun v => if v = ⟨1⟩ ∨ v = ⟨2⟩ then 9 else v.slot) ?_
    decide +kernel
  obtain ⟨x, hx, habort, hsingle, hdone⟩ := start_forecast_eq_share transfer .standard rfl spreading
    (List.cons_ne_nil _ _) haccepted (by decide) hfit hacyclic
  refine ⟨hacyclic, x, hx, habort.trans ?_, hsingle.trans ?_, (hdone ⟨1⟩ ?_).trans ?_⟩
  · decide +kernel
  · decide +kernel
  · decide +kernel
  · decide +kernel

end Graph

end PathForecast
