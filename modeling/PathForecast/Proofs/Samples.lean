import PathForecast.Proofs.Accounting

/-!
# Samples by vertex

The samples of a graph as a total map: `timingAt` gives every handle its samples, none where there
is no such vertex. A learned transaction leaves one sample on every vertex of its path, with the
time from there to its end; a recompute settles the samples that wait, and a reset does not look at
them. Main statements: `Timing.toNat_total_settle`, durations that are kept one by one come to one
clamped sum, and `timingAt_learn`, what a transaction leaves at a vertex.
-/

set_option autoImplicit false

namespace PathForecast

/-! ## Samples of one vertex -/

namespace Timing

theorem toNat_count_foldl_keep (ss : List (SampleKey × UInt64)) (t : Timing) :
    (ss.foldl (fun t s => t.keep s.2) t).count.toNat =
      min (t.count.toNat + ss.length) (UInt64.size - 1) := by
  induction ss generalizing t with
  | nil =>
      have hlt : t.count.toNat < UInt64.size := t.count.toNat_lt
      rw [List.foldl_nil, List.length_nil]
      omega
  | cons s ss ih =>
      have hkeep : (t.keep s.2).count.toNat = min (t.count.toNat + 1) (UInt64.size - 1) :=
        toNat_satAdd t.count 1
      rw [List.foldl_cons, ih, hkeep, List.length_cons]
      omega

/-- Adding durations one by one, each time up to the largest word, comes to one clamped sum. -/
theorem toNat_total_foldl_keep (ss : List (SampleKey × UInt64)) (t : Timing) :
    (ss.foldl (fun t s => t.keep s.2) t).total.toNat =
      min (t.total.toNat + (ss.map (·.2.toNat)).sum) (UInt64.size - 1) := by
  induction ss generalizing t with
  | nil =>
      have hlt : t.total.toNat < UInt64.size := t.total.toNat_lt
      rw [List.foldl_nil, List.map_nil, List.sum_nil]
      omega
  | cons s ss ih =>
      have hkeep : (t.keep s.2).total.toNat = min (t.total.toNat + s.2.toNat) (UInt64.size - 1) :=
        toNat_satAdd t.total s.2
      rw [List.foldl_cons, ih, hkeep, List.map_cons, List.sum_cons]
      omega

theorem toNat_count_settle (t : Timing) (finished : List SampleKey) :
    (t.settle finished).count.toNat =
      min (t.count.toNat + (t.pending.filter fun s => decide (s.1 ∈ finished)).length)
        (UInt64.size - 1) :=
  toNat_count_foldl_keep _ _

theorem toNat_total_settle (t : Timing) (finished : List SampleKey) :
    (t.settle finished).total.toNat =
      min (t.total.toNat +
          ((t.pending.filter fun s => decide (s.1 ∈ finished)).map (·.2.toNat)).sum)
        (UInt64.size - 1) :=
  toNat_total_foldl_keep _ _

/-- Records those of the samples of a transaction that are meant for one vertex. -/
def recordAt (t : Timing) (key : SampleKey) (v : VertexId) (ss : List (VertexId × UInt64)) :
    Timing :=
  ss.foldl (fun t s => if s.1 = v then t.record key s.2 else t) t

theorem recordAt_of_not_mem (t : Timing) (key : SampleKey) {v : VertexId}
    {ss : List (VertexId × UInt64)} (h : v ∉ ss.map Prod.fst) : t.recordAt key v ss = t := by
  induction ss with
  | nil => rfl
  | cons s ss ih =>
      rw [List.map_cons, List.mem_cons, not_or] at h
      rw [recordAt, List.foldl_cons, if_neg (Ne.symm h.1)]
      exact ih h.2

/-- Where no vertex is met twice, at most one sample is recorded. -/
theorem recordAt_eq (t : Timing) (key : SampleKey) (v : VertexId) {ss : List (VertexId × UInt64)}
    (h : (ss.map Prod.fst).Nodup) :
    t.recordAt key v ss =
      if v ∈ ss.map Prod.fst then t.record key ((ss.lookup v).getD 0) else t := by
  induction ss with
  | nil => rfl
  | cons s ss ih =>
      obtain ⟨hs, hrest⟩ := List.nodup_cons.mp h
      rw [recordAt, List.foldl_cons]
      by_cases hv : s.1 = v
      · subst hv
        rw [if_pos rfl, List.map_cons, if_pos List.mem_cons_self, List.lookup_cons_self,
          Option.getD_some]
        exact recordAt_of_not_mem _ key hs
      · have hmem : v ∈ (s :: ss).map Prod.fst ↔ v ∈ ss.map Prod.fst := by
          rw [List.map_cons, List.mem_cons]
          exact or_iff_right (Ne.symm hv)
        have hlookup : (s :: ss).lookup v = ss.lookup v := by
          rw [List.lookup_cons, beq_eq_false_iff_ne.mpr (Ne.symm hv)]
        rw [if_neg hv, hlookup]
        simp only [hmem]
        exact ih hrest

end Timing

/-! ## Journeys -/

namespace TransactionTrace

/-- The time from an instant to the end of a transaction, none if the instant is later. -/
def timeSince (t : TransactionTrace) (instant : UInt64) : UInt64 :=
  if instant ≤ t.stop then t.stop - instant else 0

/-- The durations that a transaction leaves along its path: at the start marker, at the vertex of
each query, and at the marker in which it ends. -/
def durations (t : TransactionTrace) : List UInt64 :=
  t.timeSince t.start :: t.queries.map (fun q => t.timeSince q.start) ++ [0]

theorem satSub_stop (t : TransactionTrace) (instant : UInt64) :
    satSub t.stop instant = t.timeSince instant := by
  rw [satSub, timeSince]
  by_cases h : t.stop < instant
  · rw [if_pos h, if_neg (UInt64.not_le.mpr h)]
  · rw [if_neg h, if_pos (UInt64.not_lt.mp h)]

/-- These are the durations with which learning fills the samples. -/
theorem durations_eq (t : TransactionTrace) :
    t.durations = t.elapsed :: t.queries.map t.remainingFrom ++ [0] := by
  have hremaining : t.remainingFrom = fun q => t.timeSince q.start :=
    funext fun q => t.satSub_stop q.start
  rw [durations, elapsed, satSub_stop, hremaining]

end TransactionTrace

/-- A learned transaction and the path that it took. -/
structure Journey where
  trace : TransactionTrace
  path : List VertexId

namespace Journey

def key (j : Journey) : SampleKey := j.trace.sampleKey

def samples (j : Journey) : List (VertexId × UInt64) := j.path.zip j.trace.durations

/-- The duration that a transaction leaves at a vertex of its path. -/
def durationAt (j : Journey) (v : VertexId) : UInt64 := (j.samples.lookup v).getD 0

end Journey

/-- The visit of a query goes to a vertex of its statement, with the time that it has left. -/
def Visit.Of (t : TransactionTrace) (visit : Visit) (q : QueryTrace) : Prop :=
  visit.key.statement = q.statement ∧ visit.remaining = t.remainingFrom q

theorem visits_of_resolveQueries {p : Procedure} {estimator : Estimator} {t : TransactionTrace}
    {base : PartitionId} :
    ∀ {qs : List QueryTrace} {past : PartitionSet} {counts : Table StatementId UInt32}
      {visits : List Visit}, resolveQueries p estimator t base past counts qs = .ok visits →
      List.Forall₂ (Visit.Of t) visits qs
  | [], _, _, _, h => by
      cases h
      exact .nil
  | q :: qs, past, counts, visits, h => by
      obtain ⟨-, partitions, -, -, rest, hrest, rfl⟩ :=
        (resolveQueries_cons_eq_ok_iff p estimator t base past counts q qs visits).mp h
      exact .cons ⟨rfl, rfl⟩ (visits_of_resolveQueries hrest)

/-- An accepted trace has one visit for each of its queries. -/
theorem visits_of_resolve {t : TransactionTrace} {p : Procedure} {estimator : Estimator}
    {visits : List Visit} (h : t.resolve p estimator = .ok visits) :
    List.Forall₂ (Visit.Of t) visits t.queries := by
  obtain ⟨-, -, _, -, hvisits⟩ := (resolve_eq_ok_iff t p estimator visits).mp h
  exact visits_of_resolveQueries hvisits

/-- The durations of an accepted trace, from those of its visits. -/
theorem durations_of_resolve {t : TransactionTrace} {p : Procedure} {estimator : Estimator}
    {visits : List Visit} (h : t.resolve p estimator = .ok visits) :
    t.durations = t.elapsed :: visits.map (·.remaining) ++ [0] := by
  have hsame : List.Forall₂ Eq (visits.map (·.remaining)) (t.queries.map t.remainingFrom) := by
    rw [List.forall₂_map_left_iff, List.forall₂_map_right_iff]
    exact (visits_of_resolve h).imp fun _ _ hvisit => hvisit.2
  rw [List.forall₂_eq_eq_eq] at hsame
  rw [TransactionTrace.durations_eq, hsame]

namespace Graph

variable {α : Type}

def timingAt (g : Graph α) (v : VertexId) : Timing := readAt (·.timing) .empty g v

theorem timingAt_eq {g : Graph α} {v : VertexId} {x : Vertex α} (hx : g.vertex? v = some x) :
    g.timingAt v = x.timing :=
  readAt_eq (·.timing) hx

theorem timingAt_resetCounters (g : Graph α) (v : VertexId) :
    g.resetCounters.timingAt v = g.timingAt v :=
  readAt_map (f := (·.discardHits)) (·.timing) id rfl (fun _ => rfl) rfl v

theorem timingAt_enter {g : Graph α} (hmarked : g.Marked) (h : g.seeded = true)
    (sample : SampleKey) (elapsed : UInt64) (v : VertexId) :
    (g.enter sample elapsed).timingAt v =
      if Markers.fixed.start = v then (g.timingAt v).record sample elapsed else g.timingAt v :=
  readAt_updateVertex (·.timing) (·.record sample elapsed) g v (fun _ => rfl)
    (hmarked.slot_lt h (.inl rfl))

variable [Weight α] {g k : Graph α}

theorem timingAt_fresh (p : Procedure) (s : ModelSettings α) (v : VertexId) :
    (Graph.fresh p s).timingAt v = .empty := by
  have hpush : ∀ (g : Graph α) state, readAt (·.timing) .empty (g.pushVertex state) v =
      readAt (·.timing) .empty g v :=
    fun g state => readAt_pushVertex (·.timing) (fun _ _ _ => rfl) g state v
  rw [Graph.fresh, seed_of_unseeded rfl]
  show readAt (·.timing) .empty
    ((((Graph.empty p s).pushVertex .start).pushVertex .commit).pushVertex .abort) v = .empty
  rw [hpush, hpush, hpush]
  rfl

theorem timingAt_recompute (h : g.recompute = .ok k) (v : VertexId) :
    k.timingAt v = (g.timingAt v).settle g.finishedKeys :=
  readAt_recompute (·.timing) (·.settle g.finishedKeys) (fun _ _ => rfl) (fun _ => rfl) rfl h v

/-! ## What a walk leaves -/

theorem timingAt_traverseEdge (sample : SampleKey) {source dest : VertexId} (remaining : UInt64)
    (hs : source.slot < g.vertices.size) (hd : dest.slot < g.vertices.size) (v : VertexId) :
    (g.traverseEdge sample source dest remaining).timingAt v =
      if dest = v then (g.timingAt v).record sample remaining else g.timingAt v :=
  readAt_traverseEdge (·.timing) (·.record sample remaining) (fun _ _ _ => rfl) (fun _ => rfl) hs
    hd v

theorem timingAt_follow {previous : VertexId} {visit : Visit} {visits : List Visit}
    (h : g.Ready previous (visit :: visits)) (sample : SampleKey) (v : VertexId) :
    (g.follow sample previous visit).1.timingAt v =
      if (g.follow sample previous visit).2 = v then (g.timingAt v).record sample visit.remaining
      else g.timingAt v := by
  have hensure : (g.ensureVertex visit.key).1.timingAt v = g.timingAt v :=
    ensureVertex_keeps (·.timingAt v)
      (readAt_pushVertex (·.timing) (fun _ _ _ => rfl) g (.query visit.key) v)
  have hprevious : previous.slot < (g.ensureVertex visit.key).1.vertices.size :=
    h.slot_lt.trans_le h.growth_ensureVertex.size_le.1
  rw [← hensure]
  exact timingAt_traverseEdge sample visit.remaining hprevious (g.slot_ensureVertex_lt visit.key) v

theorem length_followAll (sample : SampleKey) (visits : List Visit) :
    ∀ (g : Graph α) (previous : VertexId),
      (g.followAll sample previous visits).2.length = visits.length := by
  induction visits with
  | nil => exact fun _ _ => rfl
  | cons visit visits ih =>
      intro g previous
      rw [followAll_cons, List.length_cons, List.length_cons, ih]

/-- Following visits leaves the time that each of them has left. -/
theorem timingAt_followAll (sample : SampleKey) (visits : List Visit) (v : VertexId) :
    ∀ {g : Graph α} {previous : VertexId}, g.Ready previous visits →
      (g.followAll sample previous visits).1.timingAt v =
        (g.timingAt v).recordAt sample v
          ((g.followAll sample previous visits).2.zip (visits.map (·.remaining))) := by
  induction visits with
  | nil => exact fun _ => rfl
  | cons visit visits ih =>
      intro g previous h
      rw [followAll_cons, ih (h.follow sample), timingAt_follow h]
      rfl

theorem timingAt_walk (hmarked : g.Marked) (h : g.seeded = true) (t : TransactionTrace)
    {visits : List Visit}
    (hdeclared : ∀ visit ∈ visits, g.procedure.declares visit.key.statement = true)
    (v : VertexId) :
    (g.walk t visits).1.timingAt v =
      (g.timingAt v).recordAt t.sampleKey v
        ((g.walk t visits).2.zip (t.elapsed :: visits.map (·.remaining) ++ [0])) := by
  have hfollowed : (g.followed t visits).1.timingAt v =
      (g.timingAt v).recordAt t.sampleKey v ((Markers.fixed.start :: (g.followed t visits).2).zip
        (t.elapsed :: visits.map (·.remaining))) := by
    rw [followed, timingAt_followAll _ _ _ (hmarked.ready_enter h t hdeclared),
      timingAt_enter hmarked h]
    rfl
  have hlength : (Markers.fixed.start :: (g.followed t visits).2).length =
      (t.elapsed :: visits.map (·.remaining)).length := by
    rw [List.length_cons, List.length_cons, List.length_map]
    exact congrArg (· + 1) (length_followAll _ _ _ _)
  -- the marker at the end gets the last sample
  rw [walk_eq, List.zip_append hlength, Timing.recordAt, List.foldl_append]
  rw [Timing.recordAt] at hfollowed
  rw [← hfollowed]
  exact timingAt_traverseEdge t.sampleKey 0 (slot_lastFollowed_lt hmarked h t hdeclared)
    (slot_terminal_followed_lt hmarked h t hdeclared) v

theorem length_path_of_learn {t : TransactionTrace} {estimator : Estimator} {path : List VertexId}
    (h : g.learn t estimator = .ok (k, path)) : path.length = t.durations.length := by
  obtain ⟨-, visits, hresolve, heq⟩ := (learn_eq_ok_iff g t estimator (k, path)).mp h
  have hpath : path = (g.walk t visits).2 := congrArg Prod.snd heq
  have hfollowed : (g.followed t visits).2.length = visits.length := length_followAll _ _ _ _
  rw [hpath, walk_eq, durations_of_resolve hresolve]
  simp [hfollowed]

/-- A learned transaction leaves one sample on every vertex of its path and none elsewhere. -/
theorem timingAt_learn (hmarked : g.Marked) {t : TransactionTrace} {estimator : Estimator}
    {path : List VertexId} (h : g.learn t estimator = .ok (k, path)) (hnodup : path.Nodup)
    (v : VertexId) :
    k.timingAt v =
      if v ∈ path then (g.timingAt v).record t.sampleKey ((Journey.mk t path).durationAt v)
      else g.timingAt v := by
  have hlength := length_path_of_learn h
  obtain ⟨hseeded, visits, hresolve, heq⟩ := (learn_eq_ok_iff g t estimator (k, path)).mp h
  have hk : k = (g.walk t visits).1 := congrArg Prod.fst heq
  have hpath : path = (g.walk t visits).2 := congrArg Prod.snd heq
  have hdeclared : ∀ visit ∈ visits, g.procedure.declares visit.key.statement = true :=
    fun visit hmem => (itinerary_of_resolve hresolve).declares _ (List.mem_map_of_mem hmem)
  have hvertices : (path.zip t.durations).map Prod.fst = path := List.map_fst_zip hlength.le
  rw [hk, timingAt_walk hmarked hseeded t hdeclared, ← hpath, ← durations_of_resolve hresolve,
    Timing.recordAt_eq _ _ _ (hvertices.symm ▸ hnodup)]
  simp only [hvertices]
  rfl

/-- Learning adds samples that wait, and leaves alone what has been kept. -/
theorem timingAt_learn_kept (hmarked : g.Marked) {t : TransactionTrace} {estimator : Estimator}
    {path : List VertexId} (h : g.learn t estimator = .ok (k, path)) (hnodup : path.Nodup)
    (v : VertexId) :
    (k.timingAt v).count = (g.timingAt v).count ∧ (k.timingAt v).total = (g.timingAt v).total := by
  rw [timingAt_learn hmarked h hnodup]
  split <;> exact ⟨rfl, rfl⟩

end Graph

end PathForecast
