import PathForecast.Proofs.Windows
import PathForecast.Snapshot

/-!
# Incremental and batch recomputation

A history of learning and recomputing that ends with a recompute leads to the same graph as learning
all of its traces first and recomputing once. The recomputes in between are dropped one by one, the
last one first: what follows it is learned in lockstep with it or without it. For the samples this
takes that no trace comes twice. Main statements: `uncounted_batch`, about the graph, and
`snapshot_eq_batch`, about what it shows.
-/

set_option autoImplicit false

namespace PathForecast

open Ledger

/-! ## Traces of a history -/

def Change.lesson? : Change → Option (TransactionTrace × Estimator)
  | .learn t estimator => some (t, estimator)
  | _ => none

def taught (cs : List Change) : List (TransactionTrace × Estimator) := cs.filterMap Change.lesson?

theorem taught_lessons (ts : List (TransactionTrace × Estimator)) :
    taught (Graph.lessons ts) = ts := by
  induction ts with
  | nil => rfl
  | cons t ts ih => exact congrArg (t :: ·) ih

theorem taught_recompute : taught [Change.recompute] = [] := rfl

theorem taught_append (cs ds : List Change) : taught (cs ++ ds) = taught cs ++ taught ds :=
  List.filterMap_append

namespace Graph

variable {α : Type} [Weight α]

/-! ## Samples that wait after a history -/

theorem awaits_pushVertex {g : Graph α} {state : VertexState} {key : SampleKey}
    (h : (g.pushVertex state).Awaits key) : g.Awaits key := by
  obtain ⟨i, x, hx, hkey⟩ := h
  rw [getElem?_pushVertex] at hx
  split at hx
  · cases hx
    cases hkey
  · exact ⟨i, x, hx, hkey⟩

theorem not_awaits_fresh (p : Procedure) (s : ModelSettings α) (key : SampleKey) :
    ¬(fresh p s).Awaits key := by
  intro h
  rw [fresh, seed_of_unseeded rfl] at h
  obtain ⟨i, x, hx, -⟩ : (Graph.empty p s).Awaits key :=
    awaits_pushVertex (awaits_pushVertex (awaits_pushVertex h))
  cases hx

theorem not_awaits_recompute {g r : Graph α} (h : g.recompute = .ok r) (key : SampleKey) :
    ¬r.Awaits key := by
  rintro ⟨i, x, hx, hkey⟩
  obtain ⟨y, -, -, htiming⟩ := exists_vertex_recompute h hx
  rw [Timing.keys, htiming, Timing.pending_settle] at hkey
  cases hkey

/-- All samples are of transactions with a property. -/
def SamplesOf (P : SampleKey → Prop) (_slot : Nat) (t _u : Timing) : Prop := ∀ key ∈ t.keys, P key

theorem timely_samplesOf {P : SampleKey → Prop} {sample : SampleKey} (h : P sample) :
    Timely 0 (SamplesOf P) sample where
  empty _ _ := nofun
  record := by
    intro i t u duration ht key hkey
    rcases Timing.eq_or_mem_of_mem_keys_record hkey with rfl | hkey
    · exact h
    · exact ht key hkey

/-- Learning leaves no samples but those of the trace. -/
theorem awaits_learn {g : Graph α} {t : TransactionTrace} {estimator : Estimator}
    {key : SampleKey} (h : (g.perform (.learn t estimator)).Awaits key) :
    key = t.sampleKey ∨ g.Awaits key := by
  have hself : Lockstep 0 (SamplesOf fun key => key = t.sampleKey ∨ g.Awaits key) g g :=
    .refl (Nat.zero_le _) fun i x hx key hkey => .inr ⟨i, x, hx, hkey⟩
  obtain ⟨i, x, hx, hkey⟩ := h
  exact ((hself.learn (timely_samplesOf (.inl rfl)) estimator).vertices i x x hx hx).2 key hkey

/-- The samples that wait after a history are those of its traces. -/
theorem awaits_performAll {key : SampleKey} (cs : List Change) (hcs : ∀ c ∈ cs, c.Trains) :
    ∀ {g : Graph α}, (g.performAll cs).Awaits key →
      key ∈ (taught cs).map (·.1.sampleKey) ∨ g.Awaits key := by
  induction cs with
  | nil => exact fun h => .inr h
  | cons c cs ih =>
      intro g h
      have hrest := ih (fun d hd => hcs d (List.mem_cons_of_mem _ hd)) h
      cases hcs c List.mem_cons_self with
      | learn t estimator =>
          rcases hrest with hmem | hstep
          · exact .inl (List.mem_cons_of_mem _ hmem)
          · refine (awaits_learn hstep).imp_left fun heq => ?_
            rw [heq]
            exact List.mem_cons_self
      | recompute =>
          refine hrest.imp_right fun hstep => ?_
          cases hr : g.recompute with
          | ok r =>
              rw [perform_of_recompute hr] at hstep
              exact absurd hstep (not_awaits_recompute hr key)
          | error fault =>
              simpa [perform, hr, Except.toOption] using hstep

/-! ## Histories that end with a recompute -/

theorem length_learned_ledger_le (cs : List Change) (hcs : ∀ c ∈ cs, c.Trains) :
    ∀ {g : Graph α}, (learned (g.ledger cs)).length ≤ (taught cs).length := by
  induction cs with
  | nil => exact Nat.le_refl _
  | cons c cs ih =>
      intro g
      have hrest : (learned ((g.perform c).ledger cs)).length ≤ (taught cs).length :=
        ih fun d hd => hcs d (List.mem_cons_of_mem _ hd)
      rw [ledger, learned_append, List.length_append]
      cases hcs c List.mem_cons_self with
      | learn t estimator =>
          have hone : (learned (g.event? (.learn t estimator)).toList).length ≤ 1 := by
            rw [event?]
            cases (g.learn t estimator).toOption with
            | none => exact Nat.zero_le _
            | some r => exact Nat.le_refl _
          show _ ≤ (taught cs).length + 1
          omega
      | recompute =>
          rw [event?, Option.toList_some]
          show 0 + _ ≤ (taught cs).length
          omega

/-- A history of learning and recomputing can be recomputed once more. -/
theorem exists_trained (p : Procedure) (s : ModelSettings α) (cs : List Change)
    (hcs : ∀ c ∈ cs, c.Trains) (hbound : (taught cs).length < UInt64.size)
    (hfit : ((fresh p s).performAll cs).Fits) :
    ∃ r, ((fresh p s).performAll cs).recompute = .ok r ∧
      r.Trained ((fresh p s).ledger (cs ++ [Change.recompute])) := by
  have hlearned : (learned ((fresh p s).ledger cs)).length < UInt64.size :=
    (length_learned_ledger_le cs hcs).trans_lt hbound
  have hg := tallied_performAll cs (tallied_fresh p s) (fun c hc => (hcs c hc).observes) hlearned
    hfit
  obtain ⟨r, hr⟩ := exists_recompute hg.arranged hg.seeded
  refine ⟨r, hr, ?_⟩
  rw [← performAll_recompute hr]
  exact trained_performAll p s cs hcs hlearned hfit

/-- After a recompute of a trained graph every edge has a source with hits. -/
theorem exists_source_closeWindow {g r : Graph α} {es : List Event} (h : g.recompute = .ok r)
    (hr : r.Trained es) :
    ∀ e ∈ g.edges, ∃ x, g.closeWindow.vertex? e.source = some x ∧ x.hits.total ≠ 0 := by
  intro e he
  have hlayout := layout_of_recompute h
  obtain ⟨j, hj⟩ := Array.mem_iff_getElem?.mp he
  obtain ⟨f, hf, hef⟩ := edge_of_layout hlayout.symm hj
  have hmem : f ∈ r.edges := Array.mem_of_getElem? hf
  obtain ⟨y, hy, -⟩ := hr.exists_source hmem
  have hne := hr.source_ne_zero hmem hy
  rw [((f.frame_eq_iff e).mp hef).2.2.1] at hy
  obtain ⟨x, hx, -⟩ : ∃ x, g.closeWindow.vertex? e.source = some x ∧ _ :=
    vertex_of_layout (hlayout.trans (layout_closeWindow g).symm) hy
  refine ⟨x, hx, ?_⟩
  rw [hits_eq_vertexHits hx, vertexHits_closeWindow, ← vertexHits_recompute h,
    ← hits_eq_vertexHits hy]
  exact hne

/-! ## Dropping a recompute -/

section Drop

variable (p : Procedure) (s : ModelSettings α) (cs : List Change)
  (ts : List (TransactionTrace × Estimator)) (hcs : ∀ c ∈ cs, c.Trains)
  (hdistinct : ((taught cs ++ ts).map (·.1.sampleKey)).Nodup)
  (hbound : (taught cs ++ ts).length < UInt64.size)
  (hfit : ((fresh p s).performAll (cs ++ [Change.recompute] ++ lessons ts)).Fits)

include hcs hdistinct hbound hfit

/-- With a recompute in front of the last traces or without it, the traces are learned in
lockstep. -/
theorem lockstep_dropped :
    Lockstep ((fresh p s).performAll cs).vertices.size ((fresh p s).performAll cs).Trails
      ((fresh p s).performAll (cs ++ [Change.recompute] ++ lessons ts))
      ((fresh p s).performAll (cs ++ lessons ts)) := by
  have hgrow : Growth ((fresh p s).performAll cs)
      ((fresh p s).performAll (cs ++ [Change.recompute] ++ lessons ts)) := by
    rw [List.append_assoc]
    exact growth_performAll_append (tallied_fresh p s).marked cs _
  rw [List.length_append] at hbound
  obtain ⟨g, hg, -⟩ := exists_trained p s cs hcs (by omega) (hgrow.fits hfit)
  -- what waits is of the traces before, and no trace comes twice
  have hnew : ∀ t ∈ ts, ¬((fresh p s).performAll cs).Awaits t.1.sampleKey := by
    intro t ht hawaits
    rw [List.map_append, List.nodup_append'] at hdistinct
    have hmem := (awaits_performAll cs hcs hawaits).resolve_right (not_awaits_fresh p s _)
    exact hdistinct.2.2 hmem (List.mem_map_of_mem ht)
  rw [performAll_append, performAll_recompute hg, performAll_append]
  exact (lockstep_recompute hg).learnAll ts hnew

/-- The next recompute makes up for one that is left out. -/
theorem uncounted_dropped :
    ((fresh p s).performAll (cs ++ lessons ts ++ [Change.recompute])).uncounted =
      ((fresh p s).performAll
        (cs ++ [Change.recompute] ++ lessons ts ++ [Change.recompute])).uncounted := by
  have hlockstep := lockstep_dropped p s cs ts hcs hdistinct hbound hfit
  have hrecompute : ∀ c ∈ [Change.recompute], c.Trains := List.forall_mem_singleton.mpr .recompute
  have htrains : ∀ c ∈ cs ++ [Change.recompute] ++ lessons ts, c.Trains :=
    List.forall_mem_append.mpr
      ⟨List.forall_mem_append.mpr ⟨hcs, hrecompute⟩, trains_lessons ts⟩
  have hfitDropped : ((fresh p s).performAll (cs ++ lessons ts)).Fits :=
    (Growth.retain hlockstep.layout.symm).fits hfit
  obtain ⟨r, hr, htrained⟩ := exists_trained p s _ htrains
    (by rwa [taught_append, taught_append, taught_lessons, taught_recompute, List.append_nil]) hfit
  obtain ⟨l, hl, -⟩ := exists_trained p s _
    (List.forall_mem_append.mpr ⟨hcs, trains_lessons ts⟩)
    (by rwa [taught_append, taught_lessons]) hfitDropped
  rw [performAll_recompute hr, performAll_recompute hl]
  refine hlockstep.recompute ?_ (exists_source_closeWindow hr htrained) hr hl
  rw [settings_performAll, settings_performAll]

end Drop

/-! ## Dropping all of them -/

/-- The last recompute of a history makes of the graph what it would have made of it without any
recompute before. -/
theorem uncounted_batch (p : Procedure) (s : ModelSettings α) (cs : List Change) :
    ∀ ts : List (TransactionTrace × Estimator), (∀ c ∈ cs, c.Trains) →
      ((taught cs ++ ts).map (·.1.sampleKey)).Nodup → (taught cs ++ ts).length < UInt64.size →
      ((fresh p s).performAll (cs ++ lessons ts)).Fits →
      ((fresh p s).performAll (lessons (taught cs ++ ts) ++ [Change.recompute])).uncounted =
        ((fresh p s).performAll (cs ++ lessons ts ++ [Change.recompute])).uncounted := by
  -- the recomputes are dropped from the last one to the first
  induction cs using List.reverseRecOn with
  | nil => exact fun ts _ _ _ _ => rfl
  | append_singleton cs c ih =>
      intro ts hcs hdistinct hbound hfit
      obtain ⟨hbefore, hlast⟩ := List.forall_mem_append.mp hcs
      cases hlast c List.mem_cons_self with
      | learn t estimator =>
          have htaught : taught (cs ++ [Change.learn t estimator]) ++ ts =
              taught cs ++ (t, estimator) :: ts := by
            rw [taught_append, List.append_assoc]
            rfl
          have hchanges : cs ++ [Change.learn t estimator] ++ lessons ts =
              cs ++ lessons ((t, estimator) :: ts) := List.append_assoc _ _ _
          rw [htaught] at hdistinct hbound ⊢
          rw [hchanges] at hfit ⊢
          exact ih _ hbefore hdistinct hbound hfit
      | recompute =>
          have htaught : taught (cs ++ [Change.recompute]) = taught cs := by
            rw [taught_append, taught_recompute, List.append_nil]
          rw [htaught] at hdistinct hbound ⊢
          have hlockstep := lockstep_dropped p s cs ts hbefore hdistinct hbound hfit
          rw [← uncounted_dropped p s cs ts hbefore hdistinct hbound hfit]
          exact ih ts hbefore hdistinct hbound ((Growth.retain hlockstep.layout.symm).fits hfit)

/-- Incremental recomputation agrees with batch recomputation. If the traces of a history are told
apart by when they ended and by their ids, a last recompute leads to the same snapshot as learning
all of them and recomputing once, except for the number of recomputes. -/
theorem snapshot_eq_batch (p : Procedure) (s : ModelSettings α) (cs : List Change)
    (hcs : ∀ c ∈ cs, c.Trains) (hdistinct : ((taught cs).map (·.1.sampleKey)).Nodup)
    (hbound : (taught cs).length < UInt64.size) (hfit : ((fresh p s).performAll cs).Fits) :
    ∃ incremental batch, ((fresh p s).performAll cs).recompute = .ok incremental ∧
      ((fresh p s).performAll (lessons (taught cs))).recompute = .ok batch ∧
      incremental.snapshot =
        { batch.snapshot with recomputeCount := incremental.recomputeCount } := by
  obtain ⟨r, hr, -⟩ := exists_trained p s cs hcs hbound hfit
  have huncounted : ((fresh p s).performAll (lessons (taught cs) ++ [Change.recompute])).uncounted =
      r.uncounted := by
    have h := uncounted_batch p s cs [] hcs
    simp only [lessons, List.map_nil, List.append_nil] at h
    rw [← performAll_recompute hr]
    exact h hdistinct hbound hfit
  have hfitBatch : ((fresh p s).performAll (lessons (taught cs))).Fits := by
    have hgrow : Growth ((fresh p s).performAll (lessons (taught cs)))
        ((fresh p s).performAll (lessons (taught cs) ++ [Change.recompute])) :=
      growth_performAll_append (tallied_fresh p s).marked _ _
    have hfitLast : r.Fits := (Growth.retain (layout_of_recompute hr).symm).fits hfit
    exact hgrow.fits (hfitLast.of_le (congrArg (·.vertices.size) huncounted).le
      (congrArg (·.edges.size) huncounted).le)
  obtain ⟨l, hl, -⟩ := exists_trained p s (lessons (taught cs)) (trains_lessons _)
    (by rwa [taught_lessons]) hfitBatch
  rw [performAll_recompute hl] at huncounted
  refine ⟨r, l, hr, hl, ?_⟩
  calc r.snapshot
      = { r.uncounted.snapshot with recomputeCount := r.recomputeCount } := rfl
    _ = { l.uncounted.snapshot with recomputeCount := r.recomputeCount } := by rw [huncounted]
    _ = { l.snapshot with recomputeCount := r.recomputeCount } := rfl

def interrupted : List Change :=
  [.learn (transferTrace 1 false [10, 11]) .recorded, .recompute,
    .learn (transferTrace 2 true [11, 10]) .recorded, .recompute,
    .learn (transferTrace 3 false [10]) .recorded]

theorem snapshot_eq_batch_interrupted :
    ∃ incremental batch,
      ((fresh transfer (.standard : ModelSettings Rat)).performAll interrupted).recompute =
        .ok incremental ∧
      ((fresh transfer (.standard : ModelSettings Rat)).performAll
        (lessons (taught interrupted))).recompute = .ok batch ∧
      incremental.snapshot = { batch.snapshot with recomputeCount := incremental.recomputeCount } ∧
      incremental.recomputeCount = 3 ∧ batch.recomputeCount = 1 := by
  have htrains : ∀ c ∈ interrupted, c.Trains := by
    simp only [interrupted, List.forall_mem_cons]
    exact ⟨.learn _ _, .recompute, .learn _ _, .recompute, .learn _ _, nofun⟩
  have hfit : ((fresh transfer (.standard : ModelSettings Rat)).performAll interrupted).Fits :=
    ⟨by decide +kernel, by decide +kernel⟩
  obtain ⟨r, l, hr, hl, hsnapshot⟩ :=
    snapshot_eq_batch transfer .standard interrupted htrains (by decide) (by decide) hfit
  refine ⟨r, l, hr, hl, hsnapshot, ?_, ?_⟩
  · obtain ⟨-, -, rfl⟩ := (recompute_eq_ok_iff _ r).mp hr
    decide +kernel
  · obtain ⟨-, -, rfl⟩ := (recompute_eq_ok_iff _ l).mp hl
    decide +kernel

end Graph

end PathForecast
