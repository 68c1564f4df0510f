import PathForecast.Proofs.Coherence
import PathForecast.Proofs.Statistics

/-!
# Transactions that share a key

Samples are told apart by their keys alone, and nothing keeps two transactions from having the same
one. At every vertex the last transaction with a key takes the place of the earlier ones, and a
recompute keeps its sample if some transaction with that key has ended as the policy wants it, on
whatever path. So the sample of an aborted transaction is kept if a committed one has its key. Main
statements: `timing_lessons`, what a recompute keeps whatever the keys are, and
`keeps_aborted_sample`, a vertex through which nothing has committed keeps a sample.
-/

set_option autoImplicit false

namespace PathForecast

/-! ## The last transaction with each key -/

/-- The transactions that no later one with the same key follows. -/
def latest : List Journey → List Journey
  | [] => []
  | j :: js => if ∃ i ∈ js, i.key = j.key then latest js else j :: latest js

theorem latest_sublist (js : List Journey) : (latest js).Sublist js := by
  induction js with
  | nil => exact .slnil
  | cons j js ih =>
      rw [latest]
      split
      · exact ih.cons j
      · exact ih.cons_cons j

theorem nodup_latest (js : List Journey) : ((latest js).map (·.key)).Nodup := by
  induction js with
  | nil => exact .nil
  | cons j js ih =>
      rw [latest]
      split
      · exact ih
      · next hlast =>
        refine List.nodup_cons.mpr ⟨fun hmem => hlast ?_, ih⟩
        obtain ⟨i, hi, hkey⟩ := List.mem_map.mp hmem
        exact ⟨i, (latest_sublist js).subset hi, hkey⟩

/-- No key is lost. -/
theorem mem_keys_latest {key : SampleKey} {js : List Journey} :
    key ∈ (latest js).map (·.key) ↔ key ∈ js.map (·.key) := by
  induction js with
  | nil => rfl
  | cons j js ih =>
      rw [latest, List.map_cons, List.mem_cons]
      split
      · next hlater =>
        rw [ih]
        refine (or_iff_right_of_imp fun hkey => ?_).symm
        obtain ⟨i, hi, hsame⟩ := hlater
        exact List.mem_map.mpr ⟨i, hi, hsame.trans hkey.symm⟩
      · rw [List.map_cons, List.mem_cons, ih]

/-- Transactions chosen by their keys may be chosen before or after. -/
theorem latest_filter (q : SampleKey → Bool) (js : List Journey) :
    latest (js.filter fun j => q j.key) = (latest js).filter fun j => q j.key := by
  induction js with
  | nil => rfl
  | cons j js ih =>
      cases hq : q j.key with
      | true =>
          have hlater : (∃ i ∈ js.filter fun j => q j.key, i.key = j.key) ↔
              ∃ i ∈ js, i.key = j.key := by
            refine exists_congr fun i => ⟨fun h => ⟨List.mem_of_mem_filter h.1, h.2⟩, fun h => ?_⟩
            exact ⟨List.mem_filter.mpr ⟨h.1, by rw [h.2, hq]⟩, h.2⟩
          simp only [List.filter_cons, hq, if_true, latest, hlater, ih]
          split
          · rfl
          · simp only [List.filter_cons, hq, if_true]
      | false =>
          simp only [List.filter_cons, hq, Bool.false_eq_true, if_false, latest, ih]
          split
          · rfl
          · simp only [List.filter_cons, hq, Bool.false_eq_true, if_false]

/-- One more transaction takes the place of the one that has its key. -/
theorem latest_append_singleton (js : List Journey) (j : Journey) :
    latest (js ++ [j]) = (latest js).filter (fun i => decide (i.key ≠ j.key)) ++ [j] := by
  induction js with
  | nil => simp [latest]
  | cons i js ih =>
      have hlater : (∃ k ∈ js ++ [j], k.key = i.key) ↔
          (∃ k ∈ js, k.key = i.key) ∨ j.key = i.key := by
        simp only [List.mem_append, List.mem_singleton, or_and_right, exists_or, exists_eq_left]
      rw [List.cons_append, latest, latest, ih]
      simp only [hlater]
      by_cases hmiddle : ∃ k ∈ js, k.key = i.key
      · rw [if_pos hmiddle, if_pos (.inl hmiddle)]
      · rw [if_neg hmiddle]
        by_cases hkey : j.key = i.key
        · rw [if_pos (.inr hkey), List.filter_cons_of_neg (by simp [hkey])]
        · rw [if_neg (not_or.mpr ⟨hmiddle, hkey⟩),
            List.filter_cons_of_pos (by simpa using Ne.symm hkey), List.cons_append]

/-! ## What is kept -/

/-- The transactions whose samples at a vertex a recompute keeps, whatever the keys are. -/
def settledAt (policy : TimingPolicy) (js : List Journey) (v : VertexId) : List Journey :=
  (latest (js.filter fun j => decide (v ∈ j.path))).filter fun i =>
    decide (∃ j ∈ js, policy.keeps j.trace = true ∧ j.key = i.key)

/-- No transaction that the policy drops has gone through the vertex with the key of one that the
policy keeps. -/
def Undisguised (policy : TimingPolicy) (js : List Journey) (v : VertexId) : Prop :=
  ∀ i ∈ js, v ∈ i.path → policy.keeps i.trace = false →
    ∀ j ∈ js, policy.keeps j.trace = true → j.key ≠ i.key

/-- Transactions with such keys have gone through the vertex only along with a transaction with the
same key that the policy keeps. -/
def Accompanied (policy : TimingPolicy) (js : List Journey) (v : VertexId) : Prop :=
  ∀ i ∈ js, v ∈ i.path → policy.keeps i.trace = false →
    ∀ j ∈ js, policy.keeps j.trace = true → j.key = i.key →
      i.key ∈ (keptAt policy js v).map (·.key)

instance (policy : TimingPolicy) (js : List Journey) (v : VertexId) :
    Decidable (Undisguised policy js v) :=
  inferInstanceAs (Decidable (∀ i ∈ js, _ → _ → ∀ j ∈ js, _ → _))

instance (policy : TimingPolicy) (js : List Journey) (v : VertexId) :
    Decidable (Accompanied policy js v) :=
  inferInstanceAs (Decidable (∀ i ∈ js, _ → _ → ∀ j ∈ js, _ → _ → _))

section Settled

variable {policy : TimingPolicy} {js : List Journey} {v : VertexId}

theorem settledAt_of_undisguised (h : Undisguised policy js v) :
    settledAt policy js v = latest (keptAt policy js v) := by
  have hchosen := latest_filter
    (fun key => decide (∃ j ∈ js, policy.keeps j.trace = true ∧ j.key = key))
    (js.filter fun j => decide (v ∈ j.path))
  rw [settledAt, ← hchosen, List.filter_filter, keptAt]
  congr 1
  refine List.filter_congr fun i hi => ?_
  by_cases hv : v ∈ i.path
  · congr 1
    rw [Bool.eq_iff_iff, decide_eq_true_iff]
    constructor
    · rintro ⟨j, hj, hkept, hkey⟩
      by_contra hdropped
      exact h i hi hv (Bool.eq_false_iff.mpr hdropped) j hj hkept hkey
    · exact fun hkept => ⟨i, hi, hkept, rfl⟩
  · simp [hv]

/-- At most one sample is kept for each key, and each key is that of a transaction that has gone
through the vertex and is kept. -/
theorem length_settledAt_le (h : Accompanied policy js v) :
    (settledAt policy js v).length ≤ (keptAt policy js v).length := by
  have hnodup : ((settledAt policy js v).map (·.key)).Nodup :=
    (List.filter_sublist.map _).nodup (nodup_latest _)
  have hsubset : (settledAt policy js v).map (·.key) ⊆ (keptAt policy js v).map (·.key) := by
    intro key hkey
    obtain ⟨i, hi, rfl⟩ := List.mem_map.mp hkey
    obtain ⟨hlast, hfinished⟩ := List.mem_filter.mp hi
    obtain ⟨hmem, hv⟩ := List.mem_filter.mp ((latest_sublist _).subset hlast)
    obtain ⟨j, hj, hkept, hsame⟩ := of_decide_eq_true hfinished
    cases hkeeps : policy.keeps i.trace with
    | true => exact List.mem_map_of_mem (List.mem_filter.mpr ⟨hmem, by rw [hkeeps, hv]; rfl⟩)
    | false => exact h i hmem (of_decide_eq_true hv) hkeeps j hj hkept hsame
  have hle := (List.subperm_of_subset hnodup hsubset).length_le
  rwa [List.length_map, List.length_map] at hle

end Settled

namespace Graph

variable {α : Type}

/-! ## Samples of transactions with any keys -/

/-- A graph in which the samples of the given transactions wait, and no others. -/
structure Queued (g : Graph α) (js : List Journey) : Prop where
  ends : ∀ j ∈ js, ∀ aborted, terminal aborted ∈ j.path ↔ j.trace.aborted = aborted
  pending : ∀ v, (g.timingAt v).pending =
    ((latest (js.filter fun j => decide (v ∈ j.path))).map fun j =>
      (j.key, j.durationAt v)).reverse

/-- A graph whose samples are those of transactions learned since the graph was new. -/
structure Sampled (g : Graph α) (js : List Journey) : Prop extends g.Queued js where
  count : ∀ v, (g.timingAt v).count = 0
  total : ∀ v, (g.timingAt v).total = 0

theorem queued_nil {g : Graph α} (h : ∀ v, (g.timingAt v).pending = []) : g.Queued [] :=
  ⟨nofun, h⟩

namespace Queued

variable {g k : Graph α} {js : List Journey}

theorem of_pending (h : g.Queued js)
    (hpending : ∀ v, (k.timingAt v).pending = (g.timingAt v).pending) : k.Queued js :=
  ⟨h.ends, fun v => (hpending v).trans (h.pending v)⟩

/-- A key is found at a terminal marker if some transaction with that key has ended there. -/
theorem mem_finishedKeys (h : g.Queued js) (key : SampleKey) :
    key ∈ g.finishedKeys ↔
      ∃ j ∈ js, g.settings.timingPolicy.keeps j.trace = true ∧ j.key = key := by
  have hwaits : ∀ aborted, key ∈ (g.pendingAt (terminal aborted).slot).map (·.1) ↔
      ∃ j ∈ js, j.trace.aborted = aborted ∧ j.key = key := by
    intro aborted
    have hkeys : ((g.pendingAt (terminal aborted).slot).map (·.1)) =
        ((latest (js.filter fun j => decide (terminal aborted ∈ j.path))).map (·.key)).reverse := by
      rw [pendingAt_slot, h.pending, List.map_reverse, List.map_map]
      rfl
    rw [hkeys, List.mem_reverse, mem_keys_latest, List.mem_map]
    refine exists_congr fun j => ?_
    rw [List.mem_filter, decide_eq_true_iff, and_assoc]
    exact and_congr_right fun hj => and_congr_left' (h.ends j hj aborted)
  have hcommit : key ∈ (g.pendingAt Markers.fixed.commit.slot).map (·.1) ↔ _ := hwaits false
  have habort : key ∈ (g.pendingAt Markers.fixed.abort.slot).map (·.1) ↔ _ := hwaits true
  rw [Graph.mem_finishedKeys, hcommit, habort]
  constructor
  · rintro (⟨j, hj, hend, hkey⟩ | ⟨hpolicy, j, hj, hend, hkey⟩)
    · exact ⟨j, hj, by rw [TimingPolicy.keeps, hend]; rfl, hkey⟩
    · exact ⟨j, hj, by rw [TimingPolicy.keeps, hpolicy, Bool.or_true], hkey⟩
  · rintro ⟨j, hj, hkept, hkey⟩
    rw [TimingPolicy.keeps] at hkept
    cases hend : j.trace.aborted with
    | false => exact .inl ⟨j, hj, hend, hkey⟩
    | true =>
        rw [hend, Bool.not_true, Bool.false_or] at hkept
        exact .inr ⟨hkept, j, hj, hend, hkey⟩

/-- The samples that a recompute keeps at a vertex. -/
theorem filter_pending (h : g.Queued js) (v : VertexId) :
    (g.timingAt v).pending.filter (fun s => decide (s.1 ∈ g.finishedKeys)) =
      ((settledAt g.settings.timingPolicy js v).map fun j => (j.key, j.durationAt v)).reverse := by
  rw [h.pending, List.filter_reverse, List.filter_map, settledAt]
  congr 2
  refine List.filter_congr fun j _ => ?_
  exact decide_eq_decide.mpr (h.mem_finishedKeys j.key)

variable [Weight α]

theorem learn (h : g.Queued js) (hg : g.Coherent) {t : TransactionTrace} {estimator : Estimator}
    {path : List VertexId} (hlearn : g.learn t estimator = .ok (k, path)) (hfit : k.Fits) :
    k.Queued (js ++ [⟨t, path⟩]) := by
  have hwalked := walked_of_learn hg.arranged hg.marked hlearn hfit
  have htiming := timingAt_learn hg.marked hlearn hwalked.route.nodup
  have hk := hwalked.growth.coherent hg hfit
  refine ⟨fun j hj aborted => ?_, fun v => ?_⟩
  · rcases List.mem_append.mp hj with hj | hj
    · exact h.ends j hj aborted
    · rw [List.mem_singleton.mp hj, hwalked.route.terminal_mem_iff hk.marked hk.seeded,
        hwalked.ends, Option.some.injEq]
      cases t.aborted <;> cases aborted <;> decide
  · rw [htiming, List.filter_append]
    by_cases hv : v ∈ path
    · have hlast : ([⟨t, path⟩] : List Journey).filter (fun j => decide (v ∈ j.path)) =
          [⟨t, path⟩] := by simp [hv]
      rw [if_pos hv, Timing.record, h.pending, hlast, latest_append_singleton, List.map_append,
        List.reverse_append, List.filter_reverse, List.filter_map]
      rfl
    · rw [if_neg hv, h.pending]
      simp [hv]

/-- A recompute leaves nothing waiting and adds the samples that it keeps to the statistics. -/
theorem recompute (h : g.Queued js) (hk : g.recompute = .ok k) (v : VertexId) :
    (k.timingAt v).pending = [] ∧
      (k.timingAt v).count.toNat =
        min ((g.timingAt v).count.toNat + (settledAt g.settings.timingPolicy js v).length)
          (UInt64.size - 1) ∧
      (k.timingAt v).total.toNat =
        min ((g.timingAt v).total.toNat +
          durationsAt (settledAt g.settings.timingPolicy js v) v) (UInt64.size - 1) := by
  have hsum : (((settledAt g.settings.timingPolicy js v).map fun j =>
      (j.key, j.durationAt v)).reverse.map (·.2.toNat)).sum =
        durationsAt (settledAt g.settings.timingPolicy js v) v := by
    rw [List.map_reverse, List.sum_reverse, List.map_map]
    rfl
  rw [timingAt_recompute hk, Timing.toNat_count_settle, Timing.toNat_total_settle,
    h.filter_pending, hsum, List.length_reverse, List.length_map]
  exact ⟨Timing.pending_settle _ _, rfl, rfl⟩

end Queued

namespace Sampled

variable [Weight α] {g k : Graph α} {js : List Journey}

theorem learn (h : g.Sampled js) (hg : g.Coherent) {t : TransactionTrace} {estimator : Estimator}
    {path : List VertexId} (hlearn : g.learn t estimator = .ok (k, path)) (hfit : k.Fits) :
    k.Sampled (js ++ [⟨t, path⟩]) := by
  have hwalked := walked_of_learn hg.arranged hg.marked hlearn hfit
  have hkept := timingAt_learn_kept hg.marked hlearn hwalked.route.nodup
  exact ⟨h.toQueued.learn hg hlearn hfit, fun v => (hkept v).1.trans (h.count v),
    fun v => (hkept v).2.trans (h.total v)⟩

theorem recompute (h : g.Sampled js) (hk : g.recompute = .ok k) (v : VertexId) :
    (k.timingAt v).pending = [] ∧
      (k.timingAt v).count.toNat =
        min (UInt64.size - 1) (settledAt g.settings.timingPolicy js v).length ∧
      (k.timingAt v).total.toNat =
        min (UInt64.size - 1) (durationsAt (settledAt g.settings.timingPolicy js v) v) := by
  obtain ⟨hpending, hcount, htotal⟩ := h.toQueued.recompute hk v
  rw [h.count, UInt64.toNat_zero, Nat.zero_add, Nat.min_comm] at hcount
  rw [h.total, UInt64.toNat_zero, Nat.zero_add, Nat.min_comm] at htotal
  exact ⟨hpending, hcount, htotal⟩

end Sampled

variable [Weight α]

theorem sampled_fresh (p : Procedure) (s : ModelSettings α) : (fresh p s).Sampled [] where
  ends := nofun
  pending v := by
    rw [timingAt_fresh]
    rfl
  count v := by
    rw [timingAt_fresh]
    rfl
  total v := by
    rw [timingAt_fresh]
    rfl

theorem sampled_lessons (ts : List (TransactionTrace × Estimator)) :
    ∀ {g : Graph α} {b : Journal}, g.Coherent → g.Sampled b.waiting →
      (g.performAll (lessons ts)).Fits →
      (g.performAll (lessons ts)).Sampled (g.journal b (lessons ts)).waiting := by
  induction ts with
  | nil => exact fun _ h _ => h
  | cons t ts ih =>
      intro g b hg h hfit
      show ((g.perform (.learn t.1 t.2)).performAll (lessons ts)).Sampled
        ((g.perform (.learn t.1 t.2)).journal (g.noted b (.learn t.1 t.2)) (lessons ts)).waiting
      have hgrow : Growth g (g.perform (.learn t.1 t.2)) := hg.marked.perform_growth _
      have hstep : (g.perform (.learn t.1 t.2)).Fits :=
        (growth_performAll (lessons ts) (hgrow.marked hg.marked)).fits hfit
      refine ih (hgrow.coherent hg hstep) ?_ hfit
      cases hlearn : g.learn t.1 t.2 with
      | error fault =>
          rw [perform_of_refused hlearn]
          simpa [noted, hlearn] using h
      | ok r =>
          rw [perform_of_learn hlearn] at hstep ⊢
          simp only [noted, hlearn]
          exact h.learn hg hlearn hstep

/-- After any list of traces, whatever their keys are, a recompute leaves no sample waiting. A
vertex keeps one sample for every key that both some transaction through the vertex and some
transaction that the policy keeps have: that of the last one through the vertex with the key.
These are no more than the kept transactions through the vertex if those of other outcomes come
along with kept ones of their key, and they are samples of kept transactions alone if there are none
of other outcomes with such a key. -/
theorem timing_lessons (p : Procedure) (s : ModelSettings α)
    (ts : List (TransactionTrace × Estimator))
    (hfit : ((fresh p s).performAll (lessons ts)).Fits) :
    ∃ r, ((fresh p s).performAll (lessons ts)).recompute = .ok r ∧
      let js := ((fresh p s).journal .empty (lessons ts)).waiting
      ∀ v x, r.vertex? v = some x →
        x.timing.pending = [] ∧
        x.timing.count.toNat = min (UInt64.size - 1) (settledAt s.timingPolicy js v).length ∧
        x.timing.total.toNat =
          min (UInt64.size - 1) (durationsAt (settledAt s.timingPolicy js v) v) ∧
        (Accompanied s.timingPolicy js v →
          x.timing.count.toNat ≤ (keptAt s.timingPolicy js v).length) ∧
        (Undisguised s.timingPolicy js v →
          settledAt s.timingPolicy js v = latest (keptAt s.timingPolicy js v)) := by
  have hgrow : Growth (fresh p s) ((fresh p s).performAll (lessons ts)) :=
    growth_performAll (lessons ts) (coherent_fresh p s).marked
  have hg := hgrow.coherent (coherent_fresh p s) hfit
  have h := sampled_lessons ts (b := .empty) (coherent_fresh p s) (sampled_fresh p s) hfit
  obtain ⟨r, hr⟩ := exists_recompute hg.arranged hg.seeded
  have hsettings : ((fresh p s).performAll (lessons ts)).settings = s := hgrow.settings_eq
  refine ⟨r, hr, fun v x hx => ?_⟩
  obtain ⟨hpending, hcount, htotal⟩ := h.recompute hr v
  rw [hsettings, timingAt_eq hx] at hcount htotal
  rw [timingAt_eq hx] at hpending
  refine ⟨hpending, hcount, htotal, fun hwith => ?_, settledAt_of_undisguised⟩
  rw [hcount]
  exact (Nat.min_le_right _ _).trans (length_settledAt_le hwith)

/-- Two transactions with one key commit, and one with another key aborts. -/
def repeated : List (TransactionTrace × Estimator) :=
  [(transferTrace 1 false [10], .recorded), (transferTrace 1 false [10, 11], .recorded),
    (transferTrace 2 true [10], .recorded)]

/-- Of the three transactions that pass the vertex of `debit`, two of which commit, one sample is
kept. -/
theorem timing_lessons_repeated :
    let s : ModelSettings Rat := .standard
    let g := (fresh transfer s).performAll (lessons repeated)
    let js := ((fresh transfer s).journal .empty (lessons repeated)).waiting
    s.timingPolicy = .committedOnly ∧ g.Fits ∧
      Accompanied .committedOnly js ⟨3⟩ ∧ Undisguised .committedOnly js ⟨3⟩ ∧
      ∃ r x, g.recompute = .ok r ∧ r.vertex? ⟨3⟩ = some x ∧ x.timing.pending = [] ∧
        x.timing.count.toNat = 1 ∧ x.timing.total.toNat = 8 ∧
        x.timing.count.toNat ≤ (keptAt .committedOnly js ⟨3⟩).length ∧
        settledAt .committedOnly js ⟨3⟩ = latest (keptAt .committedOnly js ⟨3⟩) := by
  intro s g js
  have hfit : g.Fits := ⟨by decide +kernel, by decide +kernel⟩
  have hwith : Accompanied .committedOnly js ⟨3⟩ := by decide +kernel
  have hplain : Undisguised .committedOnly js ⟨3⟩ := by decide +kernel
  obtain ⟨r, hr, hvertices⟩ := timing_lessons transfer s repeated hfit
  have hsome : (g.recompute.toOption.bind (·.vertex? ⟨3⟩)).isSome = true := by decide +kernel
  rw [hr] at hsome
  obtain ⟨x, hx⟩ := Option.isSome_iff_exists.mp hsome
  obtain ⟨hpending, hcount, htotal, hle, hsettled⟩ := hvertices ⟨3⟩ x hx
  refine ⟨rfl, hfit, hwith, hplain, r, x, hr, hx, hpending, hcount.trans ?_, htotal.trans ?_,
    hle hwith, hsettled hplain⟩
  · decide +kernel
  · decide +kernel

/-- A transaction that commits and one of another path, with the same key, that aborts. -/
def disguised : List (TransactionTrace × Estimator) :=
  [(transferTrace 1 false [10], .recorded), (transferTrace 1 true [11], .recorded)]

/-- A vertex through which only an aborted transaction has gone keeps its sample, although samples
of committed transactions alone should be kept. -/
theorem keeps_aborted_sample :
    let s : ModelSettings Rat := .standard
    let js := ((fresh transfer s).journal .empty (lessons disguised)).waiting
    s.timingPolicy = .committedOnly ∧ js.length = 2 ∧
      ∃ r x, ((fresh transfer s).performAll (lessons disguised)).recompute = .ok r ∧
        r.vertex? ⟨4⟩ = some x ∧ x.timing.count = 1 ∧
        (js.filter fun j => !j.trace.aborted && decide (⟨4⟩ ∈ j.path)) = [] := by
  intro s js
  have hvertex : (((fresh transfer s).performAll (lessons disguised)).recompute.toOption.bind
      (·.vertex? ⟨4⟩)).any (fun x => decide (x.timing.count = 1)) = true := by decide +kernel
  have hnone : ((js.filter fun j => !j.trace.aborted && decide (⟨4⟩ ∈ j.path))).length = 0 := by
    decide +kernel
  obtain ⟨x, hx, hcount⟩ := (Option.any_eq_true _ _).mp hvertex
  obtain ⟨r, hr, hx⟩ := Option.bind_eq_some_iff.mp hx
  exact ⟨rfl, by decide +kernel, r, x, eq_ok_of_toOption hr, hx, of_decide_eq_true hcount,
    List.length_eq_zero_iff.mp hnone⟩

end Graph

end PathForecast
