import PathForecast.Proofs.Itinerary

/-!
# Estimates

Whether a trace is accepted, and which identities it runs through, depends on few things: its
procedure, its statements, and the partitions that the estimator assigns to its queries
(`Estimator.Estimates`). Main statements: `resolve_eq_ok_iff_estimates`, what an accepted trace is
resolved into, and `getElem?_keysAlong`, the identity of a single query.
-/

set_option autoImplicit false

namespace PathForecast

/-- The partitions that an estimator assigns to the queries of a trace, in order. -/
def Estimator.Estimates (estimator : Estimator) (t : TransactionTrace)
    (sets : List PartitionSet) : Prop :=
  ∃ base, estimator.base t = .ok base ∧
    List.Forall₂ (fun q partitions => estimator.query q base = .ok partitions) t.queries sets

theorem Estimator.Estimates.length_eq {estimator : Estimator} {t : TransactionTrace}
    {sets : List PartitionSet} (h : estimator.Estimates t sets) :
    sets.length = t.queries.length := by
  obtain ⟨_, _, hsets⟩ := h
  exact hsets.length_eq.symm

def TransactionTrace.statements (t : TransactionTrace) : List StatementId :=
  t.queries.map (·.statement)

theorem Estimator.Estimates.unique {estimator : Estimator} {t : TransactionTrace}
    {sets sets' : List PartitionSet} (h : estimator.Estimates t sets)
    (h' : estimator.Estimates t sets') : sets = sets' := by
  obtain ⟨base, hbase, hsets⟩ := h
  obtain ⟨base', hbase', hsets'⟩ := h'
  have hsame : base = base' := Except.ok.inj (hbase.symm.trans hbase')
  subst hsame
  have hright : Relator.RightUnique fun q partitions => estimator.query q base = .ok partitions :=
    fun _ _ _ hs hs' => Except.ok.inj (hs.symm.trans hs')
  exact hright.forall₂ hsets hsets'

/-! ## Single queries -/

theorem length_keysAlong (steps : List (StatementId × PartitionSet)) :
    ∀ (past : PartitionSet) (counts : StatementId → Nat),
      (keysAlong past counts steps).length = steps.length := by
  induction steps with
  | nil => exact fun _ _ => rfl
  | cons step steps ih =>
      intro past counts
      rw [keysAlong, List.length_cons, ih, List.length_cons]

/-- The identity of a query: its past is what the earlier ones have touched, and its index counts
those that run the same statement. -/
theorem getElem?_keysAlong (steps : List (StatementId × PartitionSet)) :
    ∀ (past : PartitionSet) (counts : StatementId → Nat) (i : Nat),
      (keysAlong past counts steps)[i]? = steps[i]?.map fun step =>
        ⟨step.1, step.2, (steps.take i).foldl (fun s earlier => s ∪ earlier.2) past,
          .ofNat (counts step.1 + (steps.take i).countP fun earlier => earlier.1 = step.1)⟩ := by
  induction steps with
  | nil => exact fun _ _ _ => rfl
  | cons first steps ih =>
      intro past counts i
      cases i with
      | zero => rfl
      | succ i =>
          rw [keysAlong, List.getElem?_cons_succ, List.getElem?_cons_succ, ih]
          refine congrArg (steps[i]?.map ·) (funext fun step => ?_)
          have hcount : Function.update counts first.1 (counts first.1 + 1) step.1 =
              counts step.1 + if first.1 = step.1 then 1 else 0 := by
            by_cases hs : step.1 = first.1
            · rw [hs, Function.update_self, if_pos rfl]
            · rw [Function.update_of_ne hs, if_neg (Ne.symm hs), Nat.add_zero]
          rw [hcount, List.take_succ_cons, List.foldl_cons, List.countP_cons, Nat.add_assoc,
            Nat.add_comm (if first.1 = step.1 then 1 else 0)]
          simp only [decide_eq_true_eq]

/-! ## Accepted traces -/

/-- A counter of 32 bits shows the residue of the number that it counts. -/
theorem resolveQueries_eq_ok_iff {p : Procedure} {estimator : Estimator} {t : TransactionTrace}
    {base : PartitionId} (qs : List QueryTrace) :
    ∀ {past : PartitionSet} {counts : Table StatementId UInt32} {n : StatementId → Nat}
      {visits : List Visit}, (∀ s, (counts.get? s).getD 0 = .ofNat (n s)) →
      (resolveQueries p estimator t base past counts qs = .ok visits ↔
        (∀ q ∈ qs, p.declares q.statement = true) ∧
          ∃ sets, List.Forall₂ (fun q partitions => estimator.query q base = .ok partitions) qs
              sets ∧ (∀ partitions ∈ sets, partitions.isEmpty = false) ∧
            visits = List.zipWith Visit.mk
              (keysAlong past n ((qs.map (·.statement)).zip sets)) (qs.map t.remainingFrom)) := by
  induction qs with
  | nil =>
      intro past counts n visits _
      rw [resolveQueries]
      constructor
      · intro h
        cases h
        exact ⟨List.forall_mem_nil _, [], .nil, List.forall_mem_nil _, rfl⟩
      · rintro ⟨-, _, hsets, -, rfl⟩
        cases hsets
        rfl
  | cons q qs ih =>
      intro past counts n visits hcounts
      have hnext : ∀ s, ((counts.insert q.statement
          ((counts.get? q.statement).getD 0 + 1)).get? s).getD 0 =
            .ofNat (Function.update n q.statement (n q.statement + 1) s) := by
        intro s
        rw [Table.get?_insert]
        by_cases hs : s = q.statement
        · rw [if_pos hs, hs, Function.update_self, Option.getD_some, hcounts, UInt32.ofNat_add]
          rfl
        · rw [if_neg hs, Function.update_of_ne hs, hcounts]
      rw [resolveQueries_cons_eq_ok_iff, List.forall_mem_cons, and_assoc]
      refine and_congr_right fun _ => ?_
      constructor
      · rintro ⟨partitions, hquery, hsome, rest, hrest, rfl⟩
        obtain ⟨hdeclared, sets, hsets, hnonempty, rfl⟩ := (ih hnext).mp hrest
        refine ⟨hdeclared, partitions :: sets, .cons hquery hsets, ?_, ?_⟩
        · exact List.forall_mem_cons.mpr ⟨hsome, hnonempty⟩
        · simp [keysAlong, hcounts]
      · rintro ⟨hdeclared, _, hsets, hnonempty, rfl⟩
        cases hsets with
        | @cons _ partitions _ sets hquery hsets =>
            obtain ⟨hsome, hnonempty⟩ := List.forall_mem_cons.mp hnonempty
            refine ⟨partitions, hquery, hsome, _, (ih hnext).mpr
              ⟨hdeclared, sets, hsets, hnonempty, rfl⟩, ?_⟩
            simp [keysAlong, hcounts]

/-- A trace is accepted if it is one of the procedure's, is not too long, runs declared statements
only, and every query is assigned some partitions. -/
theorem resolve_eq_ok_iff_estimates (t : TransactionTrace) (p : Procedure) (estimator : Estimator)
    (visits : List Visit) :
    t.resolve p estimator = .ok visits ↔
      t.procedure = p.id ∧ t.queries.length ≤ maxTraceQueries ∧
        (∀ s ∈ t.statements, p.declares s = true) ∧
        ∃ sets, estimator.Estimates t sets ∧ (∀ partitions ∈ sets, partitions.isEmpty = false) ∧
          visits = List.zipWith Visit.mk (keysAlong ∅ (fun _ => 0) (t.statements.zip sets))
            (t.queries.map t.remainingFrom) := by
  rw [resolve_eq_ok_iff]
  refine and_congr_right fun _ => and_congr_right fun _ => ?_
  have hqueries := fun base =>
    @resolveQueries_eq_ok_iff p estimator t base t.queries ∅ ∅ (fun _ => 0) visits fun _ => rfl
  simp only [hqueries, Estimator.Estimates, TransactionTrace.statements, List.forall_mem_map]
  constructor
  · rintro ⟨base, hbase, hdeclared, sets, hsets, hrest⟩
    exact ⟨hdeclared, sets, ⟨base, hbase, hsets⟩, hrest⟩
  · rintro ⟨hdeclared, sets, ⟨base, hbase, hsets⟩, hrest⟩
    exact ⟨base, hbase, hdeclared, sets, hsets, hrest⟩

/-- The identities of an accepted trace, from its statements and its estimates. -/
theorem exists_estimates_of_resolve {t : TransactionTrace} {p : Procedure} {estimator : Estimator}
    {visits : List Visit} (h : t.resolve p estimator = .ok visits) :
    ∃ sets, estimator.Estimates t sets ∧
      visits.map (·.key) = keysAlong ∅ (fun _ => 0) (t.statements.zip sets) := by
  obtain ⟨-, -, -, sets, hsets, -, rfl⟩ := (resolve_eq_ok_iff_estimates t p estimator visits).mp h
  refine ⟨sets, hsets, ?_⟩
  have hlength : (keysAlong ∅ (fun _ => 0) (t.statements.zip sets)).length ≤
      (t.queries.map t.remainingFrom).length := by
    rw [length_keysAlong, List.length_zip, TransactionTrace.statements, List.length_map,
      List.length_map]
    exact Nat.min_le_left _ _
  rw [← List.map_uncurry_zip_eq_zipWith, List.map_map]
  exact List.map_fst_zip hlength

end PathForecast
