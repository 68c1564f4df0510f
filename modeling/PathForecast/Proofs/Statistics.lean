import PathForecast.Proofs.Conservation
import PathForecast.Proofs.Samples
import PathForecast.Proofs.Shares
import PathForecast.Proofs.Windows

/-!
# Timing statistics

The samples of a transaction wait at the vertices of its path until the next recompute, which finds
out by their keys how the transaction ended. As long as no two transactions that wait together have
one key, nothing gets lost or mixed up on the way. Main statement: `timing_performAll`, after every
recompute the kept samples of a vertex are those of all transactions that the policy keeps.
-/

set_option autoImplicit false

namespace PathForecast

open Ledger

def TimingPolicy.keeps (policy : TimingPolicy) (t : TransactionTrace) : Bool :=
  !t.aborted || policy.includesAborted

/-- The transactions of a history whose samples are kept at a vertex. -/
def keptAt (policy : TimingPolicy) (js : List Journey) (v : VertexId) : List Journey :=
  js.filter fun j => policy.keeps j.trace && decide (v ∈ j.path)

def durationsAt (js : List Journey) (v : VertexId) : Nat :=
  (js.map fun j => (j.durationAt v).toNat).sum

theorem durationsAt_append (js ks : List Journey) (v : VertexId) :
    durationsAt (js ++ ks) v = durationsAt js v + durationsAt ks v := by
  rw [durationsAt, List.map_append, List.sum_append]
  rfl

/-! ## Journals -/

/-- The transactions that a history has learned before its last recompute, and those since. -/
structure Journal where
  filed : List Journey
  waiting : List Journey

namespace Journal

def empty : Journal := ⟨[], []⟩

def add (b : Journal) (j : Journey) : Journal := { b with waiting := b.waiting ++ [j] }

def all (b : Journal) : List Journey := b.filed ++ b.waiting

def file (b : Journal) : Journal := ⟨b.all, []⟩

theorem all_add (b : Journal) (j : Journey) : (b.add j).all = b.all ++ [j] :=
  (List.append_assoc ..).symm

theorem keptAt_all (policy : TimingPolicy) (b : Journal) (v : VertexId) :
    keptAt policy b.all v = keptAt policy b.filed v ++ keptAt policy b.waiting v :=
  List.filter_append ..

theorem all_file (b : Journal) : b.file.all = b.all := List.append_nil _

/-- Whether the waiting transactions can be told apart by their keys. -/
def Apart (b : Journal) : Prop := (b.waiting.map (·.key)).Nodup

instance (b : Journal) : Decidable b.Apart := inferInstanceAs (Decidable (List.Nodup _))

end Journal

namespace Graph

variable {α : Type}

/-! ## Samples of a journal -/

/-- A journey starts at the start marker, passes a vertex of its statement for each query, and ends
at the marker of its outcome. -/
def Passes (g : Graph α) (j : Journey) : Prop :=
  ∃ mid, j.path = Markers.fixed.start :: mid ++ [terminal j.trace.aborted] ∧
    List.Forall₂ (fun v q => ∃ key, g.state? v = some (.query key) ∧ key.statement = q.statement)
      mid j.trace.queries

theorem Traces.passes {g : Graph α} {j : Journey} {estimator : Estimator}
    (h : g.Traces j.path (j.trace, estimator)) : g.Passes j := by
  obtain ⟨visits, mid, hresolve, hpath, hholds⟩ := h
  refine ⟨mid, hpath, ?_⟩
  rw [List.forall₂_map_right_iff] at hholds
  have hvisits := visits_of_resolve hresolve
  generalize j.trace.queries = qs at hvisits
  clear hresolve hpath
  -- both lists run along the visits
  induction hvisits generalizing mid with
  | nil =>
      cases hholds
      exact .nil
  | cons hvisit _ ih =>
      cases hholds with
      | cons hv hrest =>
          obtain ⟨key, hkey, hsame⟩ := hv.query
          have hstatement := ((key.same_iff _ _).mp hsame).1
          exact .cons ⟨key, hkey, hstatement.trans hvisit.1⟩ (ih _ hrest)

/-- A graph whose samples are those of a journal. -/
structure Timed (g : Graph α) (es : List Event) (b : Journal) : Prop where
  paths : b.all.map (·.path) = learned es
  traced : ∀ j ∈ b.all, ∃ estimator, g.Traces j.path (j.trace, estimator)
  pending : ∀ v, (g.timingAt v).pending =
    ((b.waiting.filter fun j => decide (v ∈ j.path)).map fun j => (j.key, j.durationAt v)).reverse
  count : ∀ v, (g.timingAt v).count.toNat = (keptAt g.settings.timingPolicy b.filed v).length
  total : ∀ v, (g.timingAt v).total.toNat =
    min (durationsAt (keptAt g.settings.timingPolicy b.filed v) v) (UInt64.size - 1)

theorem pendingAt_slot (g : Graph α) (v : VertexId) :
    g.pendingAt v.slot = (g.timingAt v).pending := by
  rw [timingAt, readAt, pendingAt, vertex?]
  cases g.vertices[v.slot]? <;> rfl

namespace Timed

variable {g : Graph α} {es : List Event} {b : Journal}

/-- The keys at the terminal markers tell how the waiting transactions ended. -/
theorem mem_finishedKeys (h : g.Timed es b) (hg : g.Tallied es) (hapart : b.Apart) {j : Journey}
    (hj : j ∈ b.waiting) :
    j.key ∈ g.finishedKeys ↔ g.settings.timingPolicy.keeps j.trace = true := by
  have hpath : j.path ∈ learned es := by
    rw [← h.paths]
    exact List.mem_map_of_mem (List.mem_append_right _ hj)
  have hterminal : ∀ aborted, terminal aborted ∈ j.path ↔ j.trace.aborted = aborted := by
    intro aborted
    obtain ⟨estimator, htraces⟩ := h.traced j (List.mem_append_right _ hj)
    rw [(hg.routes _ hpath).terminal_mem_iff hg.marked hg.seeded, htraces.getLast?,
      Option.some.injEq]
    cases j.trace.aborted <;> cases aborted <;> decide
  have hwaits : ∀ aborted, j.key ∈ (g.pendingAt (terminal aborted).slot).map (·.1) ↔
      j.trace.aborted = aborted := by
    intro aborted
    rw [pendingAt_slot, h.pending, List.map_reverse, List.mem_reverse, List.map_map,
      ← hterminal aborted]
    constructor
    · intro hmem
      obtain ⟨i, hi, hkey⟩ := List.mem_map.mp hmem
      obtain ⟨hwaiting, hend⟩ := List.mem_filter.mp hi
      rw [← List.inj_on_of_nodup_map hapart hwaiting hj hkey]
      exact of_decide_eq_true hend
    · intro hend
      exact List.mem_map.mpr ⟨j, List.mem_filter.mpr ⟨hj, decide_eq_true hend⟩, rfl⟩
  have hcommit : j.key ∈ (g.pendingAt Markers.fixed.commit.slot).map (·.1) ↔ _ := hwaits false
  have habort : j.key ∈ (g.pendingAt Markers.fixed.abort.slot).map (·.1) ↔ _ := hwaits true
  rw [Graph.mem_finishedKeys, hcommit, habort, TimingPolicy.keeps]
  cases j.trace.aborted <;> simp

/-- The samples that a recompute keeps at a vertex. -/
theorem filter_pending (h : g.Timed es b) (hg : g.Tallied es) (hapart : b.Apart) (v : VertexId) :
    (g.timingAt v).pending.filter (fun s => decide (s.1 ∈ g.finishedKeys)) =
      ((keptAt g.settings.timingPolicy b.waiting v).map fun j =>
        (j.key, j.durationAt v)).reverse := by
  rw [h.pending, List.filter_reverse, List.filter_map, List.filter_filter, keptAt]
  congr 2
  refine List.filter_congr fun j hj => ?_
  show (decide (j.key ∈ g.finishedKeys) && decide (v ∈ j.path)) = _
  congr 1
  rw [Bool.eq_iff_iff, decide_eq_true_iff]
  exact h.mem_finishedKeys hg hapart hj

end Timed

variable [Weight α]

theorem timed_fresh (p : Procedure) (s : ModelSettings α) : (fresh p s).Timed [] .empty where
  paths := rfl
  traced := nofun
  pending v := by
    rw [timingAt_fresh]
    rfl
  count v := by
    rw [timingAt_fresh]
    rfl
  total v := by
    rw [timingAt_fresh]
    rfl

namespace Timed

variable {g k : Graph α} {es : List Event} {b : Journal}

theorem resetCounters (h : g.Timed es b) : g.resetCounters.Timed (es ++ [.closed .reset]) b where
  paths := by
    rw [learned_closed]
    exact h.paths
  traced j hj := by
    obtain ⟨estimator, htraces⟩ := h.traced j hj
    exact ⟨estimator, Growth.traces (.retain (layout_resetCounters g)) htraces⟩
  pending v := by
    rw [timingAt_resetCounters]
    exact h.pending v
  count v := by
    rw [timingAt_resetCounters]
    exact h.count v
  total v := by
    rw [timingAt_resetCounters]
    exact h.total v

theorem learn (h : g.Timed es b) (hg : g.Tallied es) {t : TransactionTrace}
    {estimator : Estimator} {path : List VertexId} (hlearn : g.learn t estimator = .ok (k, path))
    (hfit : k.Fits) (hapart : (b.add ⟨t, path⟩).Apart) :
    k.Timed (es ++ [.learned path]) (b.add ⟨t, path⟩) := by
  have hwalked := walked_of_learn hg.arranged hg.marked hlearn hfit
  have htiming := timingAt_learn hg.marked hlearn hwalked.route.nodup
  have hsettings : k.settings = g.settings := hwalked.growth.settings_eq
  have hkept := timingAt_learn_kept hg.marked hlearn hwalked.route.nodup
  refine ⟨?_, ?_, fun v => ?_, fun v => ?_, fun v => ?_⟩
  · rw [learned_learned, ← h.paths, Journal.all_add, List.map_append]
    rfl
  · intro j hj
    rw [Journal.all_add] at hj
    rcases List.mem_append.mp hj with hj | hj
    · obtain ⟨estimator, htraces⟩ := h.traced j hj
      exact ⟨estimator, hwalked.growth.traces htraces⟩
    · rw [List.mem_singleton.mp hj]
      exact ⟨estimator, traces_of_learn hg.marked hlearn hfit⟩
  · -- the new sample takes no other one's place
    rw [htiming, Journal.add, List.filter_append, List.map_append, List.reverse_append]
    by_cases hv : v ∈ path
    · have hold : (g.timingAt v).pending.filter (fun s => decide (s.1 ≠ t.sampleKey)) =
          (g.timingAt v).pending := by
        refine List.filter_eq_self.mpr fun s hs => decide_eq_true ?_
        rw [h.pending, List.mem_reverse] at hs
        obtain ⟨j, hj, rfl⟩ := List.mem_map.mp hs
        rw [Journal.Apart, Journal.add, List.map_append] at hapart
        exact (List.nodup_append.mp hapart).2.2 j.key
          (List.mem_map_of_mem (List.mem_of_mem_filter hj)) t.sampleKey List.mem_cons_self
      rw [if_pos hv, Timing.record, hold, h.pending]
      simp [hv, Journey.key]
    · rw [if_neg hv, h.pending]
      simp [hv]
  · rw [(hkept v).1, h.count, hsettings]
    rfl
  · rw [(hkept v).2, h.total, hsettings]
    rfl

theorem recompute (h : g.Timed es b) (hg : g.Tallied es) (hapart : b.Apart)
    (hbound : (learned es).length < UInt64.size) (hk : g.recompute = .ok k) :
    k.Timed (es ++ [.closed .recompute]) b.file := by
  have htiming := timingAt_recompute hk
  have hkept := h.filter_pending hg hapart
  have hsettings : k.settings = g.settings := congrArg Layout.settings (layout_of_recompute hk)
  refine ⟨?_, ?_, fun v => ?_, fun v => ?_, fun v => ?_⟩
  · rw [learned_closed, ← h.paths, Journal.all_file]
  · intro j hj
    rw [Journal.all_file] at hj
    obtain ⟨estimator, htraces⟩ := h.traced j hj
    exact ⟨estimator, Growth.traces (.retain (layout_of_recompute hk)) htraces⟩
  · rw [htiming, Timing.pending_settle]
    rfl
  · -- the count is bounded by the number of learned transactions
    have hle : (keptAt g.settings.timingPolicy b.all v).length ≤ (learned es).length := by
      rw [← h.paths, List.length_map]
      exact List.length_filter_le _ _
    rw [htiming, Timing.toNat_count_settle, hkept, List.length_reverse, List.length_map, h.count,
      hsettings]
    show _ = (keptAt g.settings.timingPolicy b.all v).length
    rw [Journal.keptAt_all, List.length_append] at hle ⊢
    omega
  · have hsum : (((keptAt g.settings.timingPolicy b.waiting v).map fun j =>
        (j.key, j.durationAt v)).reverse.map (·.2.toNat)).sum =
          durationsAt (keptAt g.settings.timingPolicy b.waiting v) v := by
      rw [List.map_reverse, List.sum_reverse, List.map_map]
      rfl
    rw [htiming, Timing.toNat_total_settle, hkept, hsum, h.total, hsettings]
    show _ = min (durationsAt (keptAt g.settings.timingPolicy b.all v) v) _
    rw [Journal.keptAt_all, durationsAt_append]
    omega

end Timed

/-! ## Histories -/

/-- The journal after a change. A trace that is refused and a reset leave it as it is. -/
def noted (g : Graph α) (b : Journal) : Change → Journal
  | .learn t estimator =>
      match g.learn t estimator with
      | .ok r => b.add ⟨t, r.2⟩
      | .error _ => b
  | .recompute => b.file
  | _ => b

/-- The journal after changes, the first one first. -/
def journal (g : Graph α) (b : Journal) : List Change → Journal
  | [] => b
  | c :: cs => (g.perform c).journal (g.noted b c) cs

/-- One change: samples and journal stay in agreement. -/
theorem timed_step {c : Change} (hc : c.Observes) {g : Graph α} {es : List Event} {b : Journal}
    (hg : g.Tallied es) (h : g.Timed es b)
    (hbound : (learned (es ++ (g.event? c).toList)).length < UInt64.size)
    (hfit : (g.perform c).Fits) (hapart : b.Apart) (hnoted : (g.noted b c).Apart) :
    (g.perform c).Timed (es ++ (g.event? c).toList) (g.noted b c) := by
  cases hc with
  | learn t estimator =>
      cases hlearn : g.learn t estimator with
      | error fault =>
          rw [perform_of_refused hlearn]
          simpa [event?, noted, hlearn, Except.toOption] using h
      | ok r =>
          have hevent : g.event? (.learn t estimator) = some (.learned r.2) := by
            simp [event?, hlearn, Except.toOption]
          have hjournal : g.noted b (.learn t estimator) = b.add ⟨t, r.2⟩ := by
            simp [noted, hlearn]
          rw [perform_of_learn hlearn] at hfit ⊢
          rw [hjournal] at hnoted ⊢
          rw [hevent]
          exact h.learn hg hlearn hfit hnoted
  | recompute =>
      obtain ⟨k, hk⟩ := exists_recompute hg.arranged hg.seeded
      rw [event?, Option.toList_some, learned_closed] at hbound
      rw [perform_of_recompute hk]
      exact h.recompute hg hapart hbound hk
  | resetCounters => exact h.resetCounters

theorem timed_performAll (cs : List Change) :
    ∀ {g : Graph α} {es : List Event} {b : Journal}, g.Tallied es → g.Timed es b →
      (∀ c ∈ cs, c.Observes) → (learned (es ++ g.ledger cs)).length < UInt64.size →
      (g.performAll cs).Fits → (∀ n, (g.journal b (cs.take n)).Apart) →
      (g.performAll cs).Timed (es ++ g.ledger cs) (g.journal b cs) := by
  induction cs with
  | nil =>
      intro g es b _ h _ _ _ _
      rw [ledger, List.append_nil]
      exact h
  | cons c cs ih =>
      intro g es b hg h hcs hbound hfit hapart
      have hrest : Growth (g.perform c) ((g.perform c).performAll cs) :=
        growth_performAll cs ((hg.marked.perform_growth c).marked hg.marked)
      rw [ledger, ← List.append_assoc] at hbound ⊢
      have hprefix : (learned (es ++ (g.event? c).toList)).length < UInt64.size := by
        rw [learned_append, List.length_append] at hbound
        omega
      have hc := hcs c List.mem_cons_self
      have htallied : (g.perform c).Tallied (es ++ (g.event? c).toList) :=
        (history_step (motive := fun _ _ => True) (fun _ _ _ _ => trivial)
          (fun _ _ _ _ _ => trivial) (fun _ _ => trivial) hc hg trivial hprefix
          (hrest.fits hfit)).1
      have htimed := timed_step hc hg h hprefix (hrest.fits hfit) (hapart 0) (hapart 1)
      exact ih htallied htimed (fun d hd => hcs d (List.mem_cons_of_mem _ hd)) hbound hfit
        fun n => hapart (n + 1)

/-- After any history of learning, recomputing and resetting in which no two transactions that wait
for the same recompute have one key, a recompute leaves no sample waiting, and the kept samples of
a vertex are those of all transactions learned so far that went through it and that the policy
keeps: one sample each, and the sum of their durations up to the largest word. -/
theorem timing_performAll (p : Procedure) (s : ModelSettings α) (cs : List Change)
    (hcs : ∀ c ∈ cs, c.Observes)
    (hbound : (learned ((fresh p s).ledger cs)).length < UInt64.size)
    (hfit : ((fresh p s).performAll cs).Fits)
    (hapart : ∀ n, ((fresh p s).journal .empty (cs.take n)).Apart) :
    ∃ r, ((fresh p s).performAll cs).recompute = .ok r ∧
      let js := ((fresh p s).journal .empty cs).all
      (js.map (·.path) = learned ((fresh p s).ledger cs) ∧ ∀ j ∈ js, r.Passes j) ∧
      ∀ v x, r.vertex? v = some x →
        x.timing.pending = [] ∧
        x.timing.count.toNat = (keptAt s.timingPolicy js v).length ∧
        x.timing.total.toNat =
          min (UInt64.size - 1) (durationsAt (keptAt s.timingPolicy js v) v) := by
  have hg := tallied_performAll cs (tallied_fresh p s) hcs hbound hfit
  have htimed := timed_performAll cs (tallied_fresh p s) (timed_fresh p s) hcs hbound hfit hapart
  have hwhole : ((fresh p s).journal .empty cs).Apart := by
    have hlast := hapart cs.length
    rwa [List.take_length] at hlast
  obtain ⟨r, hr⟩ := exists_recompute hg.arranged hg.seeded
  have hrecomputed := htimed.recompute hg hwhole hbound hr
  have hsettings : r.settings = s :=
    (congrArg Layout.settings (layout_of_recompute hr)).trans
      (growth_performAll cs (tallied_fresh p s).marked).settings_eq
  have hpasses : ∀ j ∈ ((fresh p s).journal .empty cs).all, r.Passes j := by
    intro j hj
    rw [← Journal.all_file] at hj
    obtain ⟨estimator, htraces⟩ := hrecomputed.traced j hj
    exact htraces.passes
  refine ⟨r, hr, ⟨htimed.paths, hpasses⟩, fun v x hx => ?_⟩
  have hcount := hrecomputed.count v
  have htotal := hrecomputed.total v
  have hpending := hrecomputed.pending v
  rw [timingAt_eq hx, hsettings] at hcount htotal
  rw [timingAt_eq hx] at hpending
  exact ⟨hpending, hcount, htotal.trans (min_comm _ _)⟩

/-- Three transactions of two windows pass the vertex of `debit`. The reset takes away one of their
hits and none of their samples. -/
theorem timing_performAll_transfer :
    let s : ModelSettings Rat :=
      { ModelSettings.standard with timingPolicy := .committedAndAborted }
    let g := (fresh transfer s).performAll transferHistory
    (∀ n, ((fresh transfer s).journal .empty (transferHistory.take n)).Apart) ∧
      ∃ r x, g.recompute = .ok r ∧ r.vertex? ⟨3⟩ = some x ∧ x.timing.pending = [] ∧
        x.timing.count.toNat = 3 ∧ x.timing.total.toNat = 24 := by
  intro s g
  have hobserves : ∀ c ∈ transferHistory, c.Observes := by
    simp only [transferHistory, List.forall_mem_cons]
    exact ⟨.learn _ _, .learn _ _, .recompute, .learn _ _, .resetCounters, .learn _ _,
      List.forall_mem_nil _⟩
  have hfew : (learned ((fresh transfer s).ledger transferHistory)).length < UInt64.size := by
    decide +kernel
  have hfit : g.Fits := ⟨by decide +kernel, by decide +kernel⟩
  have hapart : ∀ n, ((fresh transfer s).journal .empty (transferHistory.take n)).Apart := by
    have hshort : ∀ n < 7, ((fresh transfer s).journal .empty (transferHistory.take n)).Apart := by
      decide +kernel
    intro n
    by_cases hn : n < 7
    · exact hshort n hn
    · rw [List.take_of_length_le (Nat.le_of_lt (Nat.le_of_not_lt hn))]
      exact hshort 6 (by decide)
  obtain ⟨r, hr, -, hvertices⟩ :=
    timing_performAll transfer s transferHistory hobserves hfew hfit hapart
  have hsome : (g.recompute.toOption.bind (·.vertex? ⟨3⟩)).isSome = true := by decide +kernel
  rw [hr] at hsome
  obtain ⟨x, hx⟩ := Option.isSome_iff_exists.mp hsome
  obtain ⟨hpending, hcount, htotal⟩ := hvertices ⟨3⟩ x hx
  refine ⟨hapart, r, x, hr, hx, hpending, hcount.trans ?_, htotal.trans ?_⟩
  · decide +kernel
  · decide +kernel

end Graph

end PathForecast
