import PathForecast.Proofs.SharedKeys

/-!
# Average remaining times

The kept durations of a vertex are counted and added up one by one over all recomputes, whatever the
keys of the transactions are, and both numbers stop at the largest word. A sum that has stopped is
too small: the average is never above the longest kept duration, but it falls below the shortest one
as soon as the count times that duration does not fit into a word. Main statements:
`average_performAll`, between which bounds the average is, and `average_below`, two kept durations
with an average of half of either.
-/

set_option autoImplicit false

namespace PathForecast

/-! ## Clamped sums -/

namespace Timing

/-- The count and the sum are those of the given durations, as far as they fit. -/
structure Covers (t : Timing) (ds : List Nat) : Prop where
  count : t.count.toNat = min (UInt64.size - 1) ds.length
  total : t.total.toNat = min (UInt64.size - 1) ds.sum

namespace Covers

variable {t : Timing} {ds : List Nat}

theorem average_eq (h : t.Covers ds) (hds : ds ≠ []) :
    (t.average : Option Rat) = some ((t.total.toNat : Rat) / (t.count.toNat : Rat)) ∧
      0 < t.count.toNat := by
  have hlength : 0 < ds.length := List.length_pos_iff.mpr hds
  have hpos : 0 < t.count.toNat := by
    rw [h.count]
    exact Nat.lt_min.mpr ⟨by decide, hlength⟩
  have hcount : t.count ≠ 0 := by
    intro hzero
    rw [hzero] at hpos
    exact absurd hpos (by decide)
  refine ⟨?_, hpos⟩
  rw [average, if_neg hcount]
  rfl

/-- The clamped sum is at most the longest duration for each that is counted. -/
theorem total_le (h : t.Covers ds) {hi : Nat} (hhi : ∀ d ∈ ds, d ≤ hi) :
    t.total.toNat ≤ hi * t.count.toNat := by
  have hsum : ds.sum ≤ hi * ds.length := by
    have := List.sum_le_card_nsmul ds hi hhi
    rwa [smul_eq_mul, Nat.mul_comm] at this
  rcases Nat.le_total ds.length (UInt64.size - 1) with hfew | hmany
  · calc t.total.toNat ≤ ds.sum := h.total ▸ Nat.min_le_right _ _
      _ ≤ hi * ds.length := hsum
      _ = hi * t.count.toNat := by rw [h.count, Nat.min_eq_right hfew]
  · -- a count that has stopped is as large as the sum can get
    rcases hi.eq_zero_or_pos with rfl | hpos
    · calc t.total.toNat ≤ ds.sum := h.total ▸ Nat.min_le_right _ _
        _ ≤ 0 * t.count.toNat := by rwa [Nat.zero_mul] at hsum ⊢
    · calc t.total.toNat ≤ UInt64.size - 1 := h.total ▸ Nat.min_le_left _ _
        _ = t.count.toNat := by rw [h.count, Nat.min_eq_left hmany]
        _ ≤ hi * t.count.toNat := Nat.le_mul_of_pos_left _ hpos

/-- The clamped sum is at least the shortest duration for each that is counted if and only if that
fits into a word. -/
theorem le_total_iff (h : t.Covers ds) {lo : Nat} (hlo : ∀ d ∈ ds, lo ≤ d) :
    lo * t.count.toNat ≤ t.total.toNat ↔ lo * t.count.toNat < UInt64.size := by
  have hcount : t.count.toNat ≤ ds.length := h.count ▸ Nat.min_le_right _ _
  have hsum : lo * t.count.toNat ≤ ds.sum :=
    calc lo * t.count.toNat ≤ lo * ds.length := Nat.mul_le_mul_left lo hcount
      _ = ds.length • lo := by rw [smul_eq_mul, Nat.mul_comm]
      _ ≤ ds.sum := List.card_nsmul_le_sum ds lo hlo
  rw [h.total, Nat.le_min, and_iff_left hsum]
  exact Nat.le_sub_one_iff_lt (by decide)

theorem average_bounds (h : t.Covers ds) {lo hi : Nat} (hmin : ds.min? = some lo)
    (hmax : ds.max? = some hi) :
    ∃ q : Rat, t.average = some q ∧ q ≤ hi ∧ (lo ≤ q ↔ lo * t.count.toNat < UInt64.size) := by
  have hds : ds ≠ [] := by
    rintro rfl
    cases hmin
  obtain ⟨haverage, hpos⟩ := h.average_eq hds
  have hcount : (0 : Rat) < t.count.toNat := Nat.cast_pos.mpr hpos
  refine ⟨_, haverage, ?_, ?_⟩
  · rw [div_le_iff₀ hcount]
    exact_mod_cast h.total_le (List.max?_eq_some_iff.mp hmax).2
  · rw [le_div_iff₀ hcount, ← h.le_total_iff (List.min?_eq_some_iff.mp hmin).2]
    exact_mod_cast Iff.rfl

end Covers

end Timing

namespace Graph

variable {α : Type} [Weight α]

/-! ## Kept durations -/

/-- The transactions whose samples a change keeps at a vertex: none, if it is not a recompute. -/
def settledBy (g : Graph α) (b : Journal) (v : VertexId) : Change → List Journey
  | .recompute => settledAt g.settings.timingPolicy b.waiting v
  | _ => []

/-- The transactions whose samples the recomputes of a history keep at a vertex. -/
def settledThrough (g : Graph α) (b : Journal) (v : VertexId) : List Change → List Journey
  | [] => []
  | c :: cs => g.settledBy b v c ++ (g.perform c).settledThrough (g.noted b c) v cs

def keptDurations (g : Graph α) (v : VertexId) (cs : List Change) : List Nat :=
  (g.settledThrough .empty v cs).map fun j => (j.durationAt v).toNat

variable {g k : Graph α} {b : Journal} {c : Change}

/-- One change: the samples that wait are those of the transactions that wait. -/
theorem queued_step (hc : c.Observes) (hg : g.Coherent) (h : g.Queued b.waiting)
    (hfit : (g.perform c).Fits) : (g.perform c).Queued (g.noted b c).waiting := by
  cases hc with
  | learn t estimator =>
      cases hlearn : g.learn t estimator with
      | error fault =>
          rw [perform_of_refused hlearn]
          simpa [noted, hlearn] using h
      | ok r =>
          rw [perform_of_learn hlearn] at hfit ⊢
          simp only [noted, hlearn]
          exact h.learn hg hlearn hfit
  | recompute =>
      obtain ⟨k, hk⟩ := exists_recompute hg.arranged hg.seeded
      rw [perform_of_recompute hk]
      exact queued_nil fun v => (h.recompute hk v).1
  | resetCounters =>
      exact h.of_pending fun v => congrArg Timing.pending (timingAt_resetCounters g v)

/-- One change: what it keeps is counted and added. -/
theorem covers_step (hc : c.Observes) (hg : g.Coherent) (h : g.Queued b.waiting)
    (hfit : (g.perform c).Fits) {v : VertexId} {js : List Journey}
    (hcovers : (g.timingAt v).Covers (js.map fun j => (j.durationAt v).toNat)) :
    ((g.perform c).timingAt v).Covers
      ((js ++ g.settledBy b v c).map fun j => (j.durationAt v).toNat) := by
  cases hc with
  | learn t estimator =>
      have hnone : g.settledBy b v (.learn t estimator) = [] := rfl
      rw [hnone, List.append_nil]
      cases hlearn : g.learn t estimator with
      | error fault =>
          rw [perform_of_refused hlearn]
          exact hcovers
      | ok r =>
          rw [perform_of_learn hlearn] at hfit ⊢
          have hwalked := walked_of_learn hg.arranged hg.marked hlearn hfit
          have hkept := timingAt_learn_kept hg.marked hlearn hwalked.route.nodup v
          exact ⟨hkept.1 ▸ hcovers.count, hkept.2 ▸ hcovers.total⟩
  | recompute =>
      obtain ⟨k, hk⟩ := exists_recompute hg.arranged hg.seeded
      obtain ⟨-, hcount, htotal⟩ := h.recompute hk v
      rw [perform_of_recompute hk]
      constructor
      · rw [hcount, hcovers.count, settledBy]
        simp only [List.length_map, List.length_append]
        omega
      · rw [htotal, hcovers.total, settledBy, List.map_append, List.sum_append, durationsAt]
        omega
  | resetCounters =>
      have hnone : g.settledBy b v .resetCounters = [] := rfl
      rw [hnone, List.append_nil]
      exact timingAt_resetCounters g v ▸ hcovers

theorem covers_performAll (cs : List Change) {v : VertexId} :
    ∀ {g : Graph α} {b : Journal} {js : List Journey}, g.Coherent → g.Queued b.waiting →
      (g.timingAt v).Covers (js.map fun j => (j.durationAt v).toNat) →
      (∀ c ∈ cs, c.Observes) → (g.performAll cs).Fits →
      ((g.performAll cs).timingAt v).Covers
        ((js ++ g.settledThrough b v cs).map fun j => (j.durationAt v).toNat) := by
  induction cs with
  | nil =>
      intro g b js _ _ hcovers _ _
      rw [settledThrough, List.append_nil]
      exact hcovers
  | cons c cs ih =>
      intro g b js hg h hcovers hcs hfit
      have hc := hcs c List.mem_cons_self
      have hgrow : Growth g (g.perform c) := hg.marked.perform_growth c
      have hstep : (g.perform c).Fits :=
        (growth_performAll cs (hgrow.marked hg.marked)).fits hfit
      rw [settledThrough, ← List.append_assoc]
      exact ih (hgrow.coherent hg hstep) (queued_step hc hg h hstep)
        (covers_step hc hg h hstep hcovers) (fun d hd => hcs d (List.mem_cons_of_mem _ hd)) hfit

/-- After any history of learning, recomputing and resetting, with timestamps and keys of any kind,
the count and the sum of a vertex are those of the durations kept there, each clamped to a word. So
if durations have been kept there is an average, and the longest of them bounds it. The shortest one
bounds it if and only if its product with the count fits into a word. -/
theorem average_performAll (p : Procedure) (s : ModelSettings α) (cs : List Change)
    (hcs : ∀ c ∈ cs, c.Observes) (hfit : ((fresh p s).performAll cs).Fits) :
    ∀ v x, ((fresh p s).performAll cs).vertex? v = some x →
      let ds := (fresh p s).keptDurations v cs
      (x.timing.count.toNat = min (UInt64.size - 1) ds.length ∧
        x.timing.total.toNat = min (UInt64.size - 1) ds.sum) ∧
      ∀ lo hi, ds.min? = some lo → ds.max? = some hi →
        ∃ q : Rat, x.timing.average = some q ∧ q ≤ hi ∧
          (lo ≤ q ↔ lo * x.timing.count.toNat < UInt64.size) := by
  intro v x hx ds
  have hfresh : ((fresh p s).timingAt v).Covers (([] : List Journey).map fun j =>
      (j.durationAt v).toNat) := by
    rw [timingAt_fresh]
    exact ⟨rfl, rfl⟩
  have hcovers : x.timing.Covers ds := by
    rw [← timingAt_eq hx]
    exact covers_performAll cs (b := .empty) (coherent_fresh p s) (sampled_fresh p s).toQueued
      hfresh hcs hfit
  exact ⟨⟨hcovers.count, hcovers.total⟩, fun lo hi => hcovers.average_bounds⟩

def idleTrace (txn : UInt64) (stop : UInt64) : TransactionTrace where
  txn := ⟨txn⟩
  procedure := ⟨1⟩
  start := 0
  stop := stop
  aborted := false
  basePartition := some ⟨0⟩
  queries := []

def uneven : List Change :=
  [.learn (idleTrace 1 9) .recorded, .recompute, .learn (idleTrace 2 100) .recorded, .recompute]

theorem average_performAll_uneven :
    let g := (fresh transfer (.standard : ModelSettings Rat)).performAll uneven
    (fresh transfer (.standard : ModelSettings Rat)).keptDurations ⟨0⟩ uneven = [9, 100] ∧
      ∃ x, ∃ q : Rat, g.vertex? ⟨0⟩ = some x ∧ x.timing.average = some q ∧ 9 ≤ q ∧ q ≤ 100 := by
  intro g
  have hobserves : ∀ c ∈ uneven, c.Observes := by
    simp only [uneven, List.forall_mem_cons]
    exact ⟨.learn _ _, .recompute, .learn _ _, .recompute, nofun⟩
  have hfit : g.Fits := ⟨by decide +kernel, by decide +kernel⟩
  have hdurations : (fresh transfer (.standard : ModelSettings Rat)).keptDurations ⟨0⟩ uneven =
      [9, 100] := by decide +kernel
  have hsome : (g.vertex? ⟨0⟩).any (fun x => decide (x.timing.count = 2)) = true := by
    decide +kernel
  obtain ⟨x, hx, hcount⟩ := (Option.any_eq_true _ _).mp hsome
  obtain ⟨-, hbounds⟩ := average_performAll transfer .standard uneven hobserves hfit ⟨0⟩ x hx
  obtain ⟨q, hq, hle, hge⟩ := hbounds 9 100 (by rw [hdurations]; rfl) (by rw [hdurations]; rfl)
  refine ⟨hdurations, x, q, hx, hq, hge.mpr ?_, hle⟩
  rw [of_decide_eq_true hcount]
  decide

/-- Two transactions that take as long as a timestamp can tell, and a recompute. -/
def endless : List Change :=
  [.learn (idleTrace 1 18446744073709551615) .recorded,
    .learn (idleTrace 2 18446744073709551615) .recorded, .recompute]

/-- The average of two durations, both of the same length, is half that length. -/
theorem average_below :
    let g := (fresh transfer (.standard : ModelSettings Rat)).performAll endless
    (fresh transfer (.standard : ModelSettings Rat)).keptDurations ⟨0⟩ endless =
        [18446744073709551615, 18446744073709551615] ∧
      ∃ x, g.vertex? ⟨0⟩ = some x ∧ x.timing.count = 2 ∧
        (x.timing.average : Option Rat) = some (18446744073709551615 / 2) ∧
        (18446744073709551615 / 2 : Rat) < 18446744073709551615 := by
  intro g
  have hsome : (g.vertex? ⟨0⟩).any (fun x => decide (x.timing.count = 2 ∧
      (x.timing.average : Option Rat) = some (18446744073709551615 / 2))) = true := by
    decide +kernel
  obtain ⟨x, hx, haverage⟩ := (Option.any_eq_true _ _).mp hsome
  obtain ⟨hcount, haverage⟩ := of_decide_eq_true haverage
  exact ⟨by decide +kernel, x, hx, hcount, haverage, by norm_num⟩

end Graph

end PathForecast
