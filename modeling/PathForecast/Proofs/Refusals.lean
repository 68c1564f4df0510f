import PathForecast.Proofs.Conservation

/-!
# Refusals

A trace is refused for the first thing that is wrong with it, and a refused trace leaves no mark on
the graph. `Graph.Refuses` lists what can be wrong, in the order in which it counts.
`Graph.learnInPlace` learns step by step on a graph that is changed in place: a step that fails
leaves behind whatever the steps before it have done. Main statements: `learn_eq_error_iff`, the
fault of a refused trace, and `run_learnInPlace`, no step fails once the first one has changed the
graph.
-/

set_option autoImplicit false

namespace PathForecast

/-! ## Queries -/

theorem PartitionSet.isEmpty_iff (s : PartitionSet) : s.isEmpty = true ↔ s = ∅ := by
  constructor
  · intro h
    have hids : s.ids = [] := List.isEmpty_iff.mp h
    refine PartitionSet.ext fun p => ?_
    show p ∈ s.ids ↔ _
    simp [hids]
  · rintro rfl
    rfl

namespace QueryTrace

variable (p : Procedure) (estimator : Estimator) (base : PartitionId) (q : QueryTrace)

/-- What is wrong with a query: its statement comes first, then the estimator, then the estimate. -/
inductive Flaw : Fault → Prop
  | undeclared (h : p.declares q.statement = false) : Flaw (.unknownStatement p.id q.statement)
  | unplaced {fault : Fault} (hdeclared : p.declares q.statement = true)
      (h : estimator.query q base = .error fault) : Flaw fault
  | untouched (hdeclared : p.declares q.statement = true) (h : estimator.query q base = .ok ∅) :
      Flaw (.emptyPartitionSet q.statement)

/-- Nothing is wrong with a query: it is declared, and the estimator places it somewhere. -/
def Placed : Prop :=
  p.declares q.statement = true ∧
    ∃ partitions, estimator.query q base = .ok partitions ∧ partitions ≠ ∅

/-- The partitions of a query, or what is wrong with it. -/
def place : Except Fault PartitionSet :=
  if p.declares q.statement then do
    let partitions ← estimator.query q base
    if partitions.isEmpty then throw (.emptyPartitionSet q.statement)
    return partitions
  else .error (.unknownStatement p.id q.statement)

variable {p estimator base q}

theorem place_of_declared (hdeclared : p.declares q.statement = true) :
    q.place p estimator base = (estimator.query q base).bind fun partitions =>
      if partitions = ∅ then .error (.emptyPartitionSet q.statement) else .ok partitions := by
  rw [place, if_pos hdeclared]
  cases estimator.query q base with
  | error fault => rfl
  | ok partitions =>
      simp only [bind, Except.bind, ← PartitionSet.isEmpty_iff]
      split <;> rfl

theorem place_eq_error_iff {fault : Fault} :
    q.place p estimator base = .error fault ↔ q.Flaw p estimator base fault := by
  cases hdeclared : p.declares q.statement with
  | false =>
      rw [place, if_neg (by simp [hdeclared])]
      constructor
      · rintro ⟨⟩
        exact .undeclared hdeclared
      · rintro (_ | ⟨h, -⟩ | ⟨h, -⟩)
        · rfl
        all_goals simp [hdeclared] at h
  | true =>
      rw [place_of_declared hdeclared]
      constructor
      · intro h
        cases hquery : estimator.query q base with
        | error fault' =>
            rw [hquery] at h
            cases h
            exact .unplaced hdeclared hquery
        | ok partitions =>
            rw [hquery, Except.bind] at h
            split at h
            · next hempty =>
                cases h
                exact .untouched hdeclared (hempty ▸ hquery)
            · cases h
      · rintro (h | ⟨-, hquery⟩ | ⟨-, hquery⟩)
        · simp [hdeclared] at h
        · rw [hquery]
          rfl
        · rw [hquery]
          rfl

theorem place_eq_ok_iff {partitions : PartitionSet} :
    q.place p estimator base = .ok partitions ↔
      p.declares q.statement = true ∧ estimator.query q base = .ok partitions ∧
        partitions ≠ ∅ := by
  cases hdeclared : p.declares q.statement with
  | false => simp [place, hdeclared]
  | true =>
      rw [place_of_declared hdeclared]
      cases estimator.query q base with
      | error fault => simp [Except.bind]
      | ok found =>
          simp only [Except.bind, true_and, Except.ok.injEq]
          split
          · next hempty =>
              simp only [reduceCtorEq, false_iff, not_and, not_not]
              rintro rfl
              exact hempty
          · next hne =>
              simp only [Except.ok.injEq, iff_self_and]
              rintro rfl
              exact hne

end QueryTrace

theorem resolveQueries_cons (p : Procedure) (estimator : Estimator) (t : TransactionTrace)
    (base : PartitionId) (past : PartitionSet) (counts : Table StatementId UInt32) (q : QueryTrace)
    (qs : List QueryTrace) :
    resolveQueries p estimator t base past counts (q :: qs) =
      (q.place p estimator base).bind fun partitions =>
        (resolveQueries p estimator t base (past ∪ partitions)
          (counts.insert q.statement ((counts.get? q.statement).getD 0 + 1)) qs).map fun visits =>
            ⟨⟨q.statement, partitions, past, (counts.get? q.statement).getD 0⟩,
              t.remainingFrom q⟩ :: visits := by
  rw [resolveQueries, QueryTrace.place]
  split
  · cases estimator.query q base with
    | error fault => rfl
    | ok partitions =>
        simp only [bind, Except.bind]
        split
        · rfl
        · rfl
  · rfl

/-- Either the first query has a flaw, or it is placed and one of the others has a flaw. -/
theorem resolveQueries_cons_eq_error_iff {p : Procedure} {estimator : Estimator}
    {t : TransactionTrace} {base : PartitionId} {past : PartitionSet}
    {counts : Table StatementId UInt32} {q : QueryTrace} {qs : List QueryTrace} {fault : Fault} :
    resolveQueries p estimator t base past counts (q :: qs) = .error fault ↔
      q.place p estimator base = .error fault ∨
        ∃ partitions, q.place p estimator base = .ok partitions ∧
          resolveQueries p estimator t base (past ∪ partitions)
            (counts.insert q.statement ((counts.get? q.statement).getD 0 + 1)) qs =
              .error fault := by
  rw [resolveQueries_cons]
  cases q.place p estimator base with
  | error fault => simp [Except.bind]
  | ok partitions =>
      simp only [Except.bind, reduceCtorEq, false_or, Except.ok.injEq, exists_eq_left']
      cases resolveQueries p estimator t base (past ∪ partitions)
          (counts.insert q.statement ((counts.get? q.statement).getD 0 + 1)) qs with
      | error fault => rfl
      | ok visits => simp [Except.map]

/-- Queries are refused for the first one that has a flaw. -/
theorem resolveQueries_eq_error_iff {p : Procedure} {estimator : Estimator} {t : TransactionTrace}
    {base : PartitionId} {fault : Fault} (qs : List QueryTrace) :
    ∀ {past : PartitionSet} {counts : Table StatementId UInt32},
      resolveQueries p estimator t base past counts qs = .error fault ↔
        ∃ before q after, qs = before ++ q :: after ∧
          (∀ r ∈ before, r.Placed p estimator base) ∧ q.Flaw p estimator base fault := by
  induction qs with
  | nil =>
      intro past counts
      simp [resolveQueries]
  | cons q qs ih =>
      intro past counts
      rw [resolveQueries_cons_eq_error_iff]
      constructor
      · rintro (hplace | ⟨partitions, hplace, hrest⟩)
        · exact ⟨[], q, qs, rfl, List.forall_mem_nil _, QueryTrace.place_eq_error_iff.mp hplace⟩
        · obtain ⟨before, r, after, rfl, hbefore, hflaw⟩ := ih.mp hrest
          obtain ⟨hdeclared, hplaced⟩ := QueryTrace.place_eq_ok_iff.mp hplace
          exact ⟨q :: before, r, after, rfl,
            List.forall_mem_cons.mpr ⟨⟨hdeclared, partitions, hplaced⟩, hbefore⟩, hflaw⟩
      · rintro ⟨before, r, after, hsplit, hbefore, hflaw⟩
        cases before with
        | nil =>
            obtain ⟨rfl, rfl⟩ := List.cons.inj hsplit
            exact .inl (QueryTrace.place_eq_error_iff.mpr hflaw)
        | cons first before =>
            obtain ⟨rfl, rfl⟩ := List.cons.inj hsplit
            obtain ⟨⟨hdeclared, partitions, hplaced⟩, hbefore⟩ := List.forall_mem_cons.mp hbefore
            exact .inr ⟨partitions, QueryTrace.place_eq_ok_iff.mpr ⟨hdeclared, hplaced⟩,
              ih.mpr ⟨before, r, after, rfl, hbefore, hflaw⟩⟩

namespace Graph

variable {α : Type}

/-! ## Traces -/

/-- Why a graph refuses a trace: each reason counts only where none of the earlier ones applies. -/
inductive Refuses (g : Graph α) (t : TransactionTrace) (estimator : Estimator) : Fault → Prop
  | unseeded (h : g.seeded = false) : Refuses g t estimator (.notInitialized g.procedure.id)
  | foreign (hseeded : g.seeded = true) (h : t.procedure ≠ g.procedure.id) :
      Refuses g t estimator (.procedureMismatch g.procedure.id t.procedure)
  | tooLong (hseeded : g.seeded = true) (hprocedure : t.procedure = g.procedure.id)
      (h : maxTraceQueries < t.queries.length) :
      Refuses g t estimator (.traceTooLong t.queries.length)
  | unbased {fault : Fault} (hseeded : g.seeded = true) (hprocedure : t.procedure = g.procedure.id)
      (hlength : t.queries.length ≤ maxTraceQueries) (h : estimator.base t = .error fault) :
      Refuses g t estimator fault
  | query {base : PartitionId} {before after : List QueryTrace} {q : QueryTrace} {fault : Fault}
      (hseeded : g.seeded = true) (hprocedure : t.procedure = g.procedure.id)
      (hlength : t.queries.length ≤ maxTraceQueries) (hbase : estimator.base t = .ok base)
      (hqueries : t.queries = before ++ q :: after)
      (hbefore : ∀ r ∈ before, r.Placed g.procedure estimator base)
      (h : q.Flaw g.procedure estimator base fault) : Refuses g t estimator fault

variable [Weight α] {g : Graph α} {t : TransactionTrace} {estimator : Estimator}

omit [Weight α] in
theorem resolve_eq_error_iff (hseeded : g.seeded = true) {fault : Fault} :
    t.resolve g.procedure estimator = .error fault ↔ g.Refuses t estimator fault := by
  unfold TransactionTrace.resolve
  constructor
  · intro h
    split at h
    · next hprocedure =>
        cases h
        exact .foreign hseeded hprocedure
    · next hprocedure =>
        rw [not_not] at hprocedure
        split at h
        · next hlength =>
            cases h
            exact .tooLong hseeded hprocedure hlength
        · next hlength =>
            rw [not_lt] at hlength
            cases hbase : estimator.base t with
            | error fault' =>
                rw [hbase] at h
                cases h
                exact .unbased hseeded hprocedure hlength hbase
            | ok base =>
                rw [hbase] at h
                obtain ⟨before, q, after, hqueries, hbefore, hflaw⟩ :=
                  (resolveQueries_eq_error_iff t.queries).mp h
                exact .query hseeded hprocedure hlength hbase hqueries hbefore hflaw
  · intro h
    cases h with
    | unseeded h => simp [hseeded] at h
    | foreign _ h => rw [if_pos h]
    | tooLong _ hprocedure h => rw [if_neg (not_not.mpr hprocedure), if_pos h]
    | unbased _ hprocedure hlength h =>
        rw [if_neg (not_not.mpr hprocedure), if_neg hlength.not_gt, h]
        rfl
    | query _ hprocedure hlength hbase hqueries hbefore h =>
        rw [if_neg (not_not.mpr hprocedure), if_neg hlength.not_gt, hbase]
        exact (resolveQueries_eq_error_iff t.queries).mpr ⟨_, _, _, hqueries, hbefore, h⟩

theorem learn_eq_error_iff {fault : Fault} :
    g.learn t estimator = .error fault ↔ g.Refuses t estimator fault := by
  unfold learn
  rw [markers_eq]
  cases hseeded : g.seeded with
  | false =>
      constructor
      · rintro ⟨⟩
        exact .unseeded hseeded
      · rintro (_ | ⟨h, -⟩ | ⟨h, -⟩ | ⟨h, -⟩ | ⟨h, -⟩)
        · rfl
        all_goals simp [hseeded] at h
  | true =>
      rw [← resolve_eq_error_iff hseeded]
      cases t.resolve g.procedure estimator with
      | error fault => simp [bind, Except.bind]
      | ok visits => simp [bind, Except.bind, pure, Except.pure]

/-! ## Learning in place -/

/-- An operation that changes a graph in place. Where a step fails, the graph stays as the steps
before it have left it. -/
abbrev InPlace (α β : Type) := ExceptT Fault (StateM (Graph α)) β

namespace InPlace

variable {β γ : Type}

omit [Weight α] in
/-- The second operation works on what the first one leaves, unless that one has failed. -/
theorem run_bind (x : InPlace α β) (f : β → InPlace α γ) (g : Graph α) :
    (x >>= f).run.run g =
      match x.run.run g with
      | (.ok b, k) => (f b).run.run k
      | (.error fault, k) => (.error fault, k) := by
  rw [ExceptT.run_bind, StateT.run_bind]
  cases x.run.run g with
  | mk answer k => cases answer <;> rfl

omit [Weight α] in
@[simp] theorem run_get (g : Graph α) : (get : InPlace α (Graph α)).run.run g = (.ok g, g) := rfl

omit [Weight α] in
@[simp] theorem run_liftM (g : Graph α) (e : Except Fault β) :
    (liftM e : InPlace α β).run.run g = (e, g) := rfl

omit [Weight α] in
@[simp] theorem run_modify (g : Graph α) (change : Graph α → Graph α) :
    (modify change : InPlace α PUnit).run.run g = (.ok ⟨⟩, change g) := rfl

omit [Weight α] in
@[simp] theorem run_modifyGet (g : Graph α) (change : Graph α → β × Graph α) :
    (modifyGet change : InPlace α β).run.run g = (.ok (change g).1, (change g).2) := rfl

end InPlace

def followInPlace (sample : SampleKey) : VertexId → List Visit → InPlace α (List VertexId)
  | _, [] => return []
  | previous, visit :: visits => do
      let next ← modifyGet fun g => (g.follow sample previous visit).swap
      let path ← followInPlace sample next visits
      return next :: path

/-- Learns one transaction, looking up every marker where it is needed. -/
def learnInPlace (t : TransactionTrace) (estimator : Estimator) :
    InPlace α (List VertexId) := do
  let markers ← (← get).markers
  let visits ← t.resolve (← get).procedure estimator
  let _ ← (← get).vertex markers.start
  modify (·.enter t.sampleKey t.elapsed)
  let path ← followInPlace t.sampleKey markers.start visits
  let _ ← (← get).vertex (terminal t.aborted)
  modify (·.leave t.sampleKey ((markers.start :: path).getLastD markers.start) t.aborted)
  modify (·.countTransaction)
  return markers.start :: path ++ [terminal t.aborted]

theorem run_followInPlace (sample : SampleKey) (visits : List Visit) :
    ∀ (g : Graph α) (previous : VertexId),
      (followInPlace sample previous visits).run.run g =
        (.ok (g.followAll sample previous visits).2, (g.followAll sample previous visits).1) := by
  induction visits with
  | nil => exact fun _ _ => rfl
  | cons visit visits ih =>
      intro g previous
      rw [followInPlace, InPlace.run_bind, InPlace.run_modifyGet]
      simp only [InPlace.run_bind, ih, followAll_cons]
      rfl

omit [Weight α] in
theorem exists_vertex_eq_ok {v : VertexId} (hv : v.slot < g.vertices.size) :
    ∃ x, g.vertex v = .ok x := by
  obtain ⟨x, hx⟩ := Option.isSome_iff_exists.mp ((g.isSome_vertex?_iff v).mpr hv)
  exact ⟨x, by rw [vertex, hx]⟩

/-- Once a trace is resolved, no step fails, so a fault never comes after a change. -/
theorem run_learnInPlace (hg : g.Marked) :
    (learnInPlace t estimator).run.run g =
      match g.learn t estimator with
      | .ok (k, path) => (.ok path, k)
      | .error fault => (.error fault, g) := by
  simp only [learnInPlace, InPlace.run_bind, InPlace.run_get, InPlace.run_liftM,
    InPlace.run_modify, run_followInPlace, learn]
  cases hseeded : g.seeded with
  | false =>
      have hmarkers : g.markers = .error (.notInitialized g.procedure.id) := by
        rw [markers_eq, if_neg (by simp [hseeded])]
      simp only [hmarkers]
      rfl
  | true =>
      have hmarkers : g.markers = .ok .fixed := by rw [markers_eq, if_pos hseeded]
      cases hvisits : t.resolve g.procedure estimator with
      | error fault =>
          simp only [hmarkers, hvisits]
          rfl
      | ok visits =>
          -- both markers are looked up where they are: before the walk and at its end
          have hdeclared : ∀ visit ∈ visits, g.procedure.declares visit.key.statement = true :=
            fun visit hmem => (itinerary_of_resolve hvisits).declares _ (List.mem_map_of_mem hmem)
          obtain ⟨x, hx⟩ := exists_vertex_eq_ok (hg.slot_lt hseeded (.inl rfl))
          obtain ⟨y, hy⟩ := exists_vertex_eq_ok (slot_terminal_followed_lt hg hseeded t hdeclared)
          rw [followed] at hy
          simp only [hmarkers, hvisits, hx, hy]
          rfl

/-! ## Reachable graphs -/

/-- A transaction is refused exactly if something is wrong with it, for the first thing that is, and
then the graph is what it was before. -/
theorem refuses_iff_of_reachable {p : Procedure} {s : ModelSettings α} (h : Reachable p s g)
    (t : TransactionTrace) (estimator : Estimator) :
    let outcome := (learnInPlace t estimator).run.run g
    (∀ fault, outcome.1 = .error fault ↔ g.Refuses t estimator fault) ∧
      (∀ fault, outcome.1 = .error fault → outcome.2 = g) ∧
      outcome.1 = (g.learn t estimator).map (·.2) ∧
      outcome.2 = g.perform (.learn t estimator) := by
  intro outcome
  have houtcome : outcome = _ := run_learnInPlace (marked_of_reachable h)
  cases hlearn : g.learn t estimator with
  | error fault =>
      rw [hlearn] at houtcome
      rw [houtcome, perform_of_refused hlearn]
      refine ⟨fun fault' => ?_, fun _ _ => rfl, rfl, rfl⟩
      rw [← learn_eq_error_iff, hlearn]
      simp
  | ok r =>
      rw [hlearn] at houtcome
      rw [houtcome, perform_of_learn hlearn]
      refine ⟨fun fault' => ?_, nofun, rfl, rfl⟩
      rw [← learn_eq_error_iff, hlearn]
      simp

def halfBlind : Estimator where
  base _ := .ok ⟨0⟩
  query q _ := if q.statement = ⟨11⟩ then .error (.vertexNotFound ⟨7⟩) else .ok (.singleton ⟨4⟩)

/-- The credit cannot be placed; that an undeclared statement follows it does not count, and the
debit before it, which would have led to a new vertex, leaves no trace. -/
theorem refuses_transfer :
    let g := (fresh transfer (.standard : ModelSettings Rat)).performAll transferHistory
    let t := transferTrace 5 false [10, 11, 13]
    g.vertices.size = 5 ∧
      (learnInPlace t halfBlind).run.run g = (.error (.vertexNotFound ⟨7⟩), g) := by
  intro g t
  have hreach : Reachable transfer .standard g :=
    (Reachable.empty.step .seed).performAll transferHistory
  obtain ⟨hfault, hsame, -⟩ := refuses_iff_of_reachable hreach t halfBlind
  have herror : ((learnInPlace t halfBlind).run.run g).1 = .error (.vertexNotFound ⟨7⟩) := by
    have hplaced : QueryTrace.Placed g.procedure halfBlind ⟨0⟩ ⟨⟨10⟩, 1, 2, none⟩ :=
      ⟨by decide +kernel, .singleton ⟨4⟩, rfl, by decide⟩
    have hflaw : QueryTrace.Flaw g.procedure halfBlind ⟨0⟩ ⟨⟨11⟩, 1, 2, none⟩
        (.vertexNotFound ⟨7⟩) := .unplaced (by decide +kernel) rfl
    exact (hfault _).mpr (.query (by decide +kernel) (by decide +kernel) (by decide) rfl rfl
      (List.forall_mem_singleton.mpr hplaced) hflaw)
  exact ⟨by decide +kernel, Prod.ext herror (hsame _ herror)⟩

end Graph

end PathForecast
