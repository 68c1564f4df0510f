import Mathlib.Tactic
import PathForecast.Graph.Learning

/-!
# Itineraries

An accepted trace is resolved into the identities of the vertices that it runs through. Their past
partitions are those touched before, and their indices count the earlier runs of the same
statement: `Itinerary` says so, and `itinerary_of_resolve` finds it in every accepted trace. Main
statement: no statement comes twice with one index (`Itinerary.pairwise`).
-/

set_option autoImplicit false

namespace PathForecast

/-- The identities of a transaction that has touched `past` and has run each statement as often as
`counts` says. -/
def Itinerary (p : Procedure) : PartitionSet → (StatementId → Nat) → List VertexKey → Prop
  | _, _, [] => True
  | past, counts, k :: ks =>
      p.declares k.statement = true ∧ k.past = past ∧ k.index.toNat = counts k.statement ∧
        Itinerary p (past ∪ k.partitions)
          (Function.update counts k.statement (counts k.statement + 1)) ks

/-! ## Accepted queries -/

theorem eq_ok_of_toOption {ε β : Type} {e : Except ε β} {b : β} (h : e.toOption = some b) :
    e = .ok b := by
  cases e with
  | error _ => cases h
  | ok a => exact congrArg Except.ok (Option.some.inj h)

theorem resolveQueries_cons_eq_ok_iff (p : Procedure) (estimator : Estimator)
    (t : TransactionTrace) (base : PartitionId) (past : PartitionSet)
    (counts : Table StatementId UInt32) (q : QueryTrace) (qs : List QueryTrace)
    (visits : List Visit) :
    resolveQueries p estimator t base past counts (q :: qs) = .ok visits ↔
      p.declares q.statement = true ∧
        ∃ partitions, estimator.query q base = .ok partitions ∧ partitions.isEmpty = false ∧
          ∃ rest, resolveQueries p estimator t base (past ∪ partitions)
              (counts.insert q.statement ((counts.get? q.statement).getD 0 + 1)) qs = .ok rest ∧
            visits = ⟨⟨q.statement, partitions, past, (counts.get? q.statement).getD 0⟩,
              t.remainingFrom q⟩ :: rest := by
  rw [resolveQueries]
  cases p.declares q.statement with
  | false => simp
  | true =>
      simp only [if_true, true_and]
      cases estimator.query q base with
      | error fault => simp [bind, Except.bind]
      | ok partitions =>
          cases hempty : partitions.isEmpty with
          | true => simp [bind, Except.bind, hempty, throw, throwThe, MonadExceptOf.throw]
          | false =>
              simp only [bind, Except.bind, hempty, Except.ok.injEq, exists_eq_left', true_and]
              cases resolveQueries p estimator t base (past ∪ partitions)
                  (counts.insert q.statement ((counts.get? q.statement).getD 0 + 1)) qs with
              | error fault => simp
              | ok rest => simp [pure, Except.pure, eq_comm]

/-- Resolved queries are an itinerary as long as no counter wraps. -/
theorem itinerary_of_resolveQueries {p : Procedure} {estimator : Estimator}
    {t : TransactionTrace} {base : PartitionId} :
    ∀ {qs : List QueryTrace} {past : PartitionSet} {counts : Table StatementId UInt32}
      {n : StatementId → Nat} {visits : List Visit},
      (∀ s, ((counts.get? s).getD 0).toNat = n s) →
      (∀ s, n s + qs.length < UInt32.size) →
      resolveQueries p estimator t base past counts qs = .ok visits →
      Itinerary p past n (visits.map (·.key))
  | [], _, _, _, visits, _, _, h => by
      cases h
      trivial
  | q :: qs, past, counts, n, visits, hcounts, hbound, h => by
      obtain ⟨hdeclared, partitions, _, _, rest, hrest, rfl⟩ :=
        (resolveQueries_cons_eq_ok_iff p estimator t base past counts q qs visits).mp h
      have hlt := hbound q.statement
      rw [List.length_cons] at hlt
      refine ⟨hdeclared, rfl, hcounts q.statement, itinerary_of_resolveQueries ?_ ?_ hrest⟩
      · intro s
        rw [Table.get?_insert]
        by_cases hs : s = q.statement
        · subst hs
          rw [if_pos rfl, Function.update_self, Option.getD_some, UInt32.toNat_add, hcounts]
          exact Nat.mod_eq_of_lt (by simp only [UInt32.size] at hlt; simp; omega)
        · rw [if_neg hs, Function.update_of_ne hs, hcounts]
      · intro s
        have hs := hbound s
        rw [List.length_cons] at hs
        by_cases heq : s = q.statement
        · subst heq
          rw [Function.update_self]
          show n q.statement + 1 + qs.length < UInt32.size
          omega
        · rw [Function.update_of_ne heq]
          omega

theorem resolve_eq_ok_iff (t : TransactionTrace) (p : Procedure) (estimator : Estimator)
    (visits : List Visit) :
    t.resolve p estimator = .ok visits ↔
      t.procedure = p.id ∧ t.queries.length ≤ maxTraceQueries ∧
        ∃ base, estimator.base t = .ok base ∧
          resolveQueries p estimator t base ∅ ∅ t.queries = .ok visits := by
  unfold TransactionTrace.resolve
  by_cases hp : t.procedure = p.id
  · by_cases hlength : maxTraceQueries < t.queries.length
    · simp [hp, hlength]
    · rw [if_neg (by simpa using hp), if_neg hlength]
      cases estimator.base t with
      | error fault => simp [bind, Except.bind]
      | ok base => simp [bind, Except.bind, hp, Nat.le_of_not_lt hlength]
  · simp [hp]

/-- The identities of an accepted trace. -/
theorem itinerary_of_resolve {t : TransactionTrace} {p : Procedure} {estimator : Estimator}
    {visits : List Visit} (h : t.resolve p estimator = .ok visits) :
    Itinerary p ∅ (fun _ => 0) (visits.map (·.key)) := by
  obtain ⟨_, hlength, base, _, hvisits⟩ := (resolve_eq_ok_iff t p estimator visits).mp h
  refine itinerary_of_resolveQueries (fun _ => rfl) (fun _ => ?_) hvisits
  simp only [maxTraceQueries] at hlength
  simp only [UInt32.size]
  omega

/-! ## What an itinerary keeps -/

namespace Itinerary

variable {p : Procedure}

theorem declares : ∀ {ks : List VertexKey} {past : PartitionSet} {counts : StatementId → Nat},
    Itinerary p past counts ks → ∀ k ∈ ks, p.declares k.statement = true
  | _ :: _, _, _, ⟨hk, _, _, hks⟩, k, hmem => by
      rcases List.mem_cons.mp hmem with rfl | hmem
      · exact hk
      · exact hks.declares k hmem

theorem index_ge : ∀ {ks : List VertexKey} {past : PartitionSet} {counts : StatementId → Nat},
    Itinerary p past counts ks → ∀ k ∈ ks, counts k.statement ≤ k.index.toNat
  | l :: _, _, counts, ⟨_, _, hindex, hks⟩, k, hmem => by
      rcases List.mem_cons.mp hmem with rfl | hmem
      · exact hindex.ge
      · have hge := hks.index_ge k hmem
        by_cases hs : k.statement = l.statement
        · rw [hs, Function.update_self] at hge
          rw [hs]
          omega
        · rwa [Function.update_of_ne hs] at hge

/-- No two identities agree in statement and index. -/
theorem pairwise : ∀ {ks : List VertexKey} {past : PartitionSet} {counts : StatementId → Nat},
    Itinerary p past counts ks →
      ks.Pairwise fun k l => ¬(k.statement = l.statement ∧ k.index = l.index)
  | [], _, _, _ => List.Pairwise.nil
  | k :: ks, _, counts, ⟨_, _, hindex, hks⟩ => by
      refine List.pairwise_cons.mpr ⟨?_, hks.pairwise⟩
      rintro l hl ⟨hstatement, heq⟩
      have hge := hks.index_ge l hl
      rw [← hstatement, Function.update_self, ← heq] at hge
      omega

end Itinerary

/-! ## Itineraries from statements and partitions -/

/-- The identities of a transaction that has touched `past` and has run each statement as often as
`counts` says. -/
def keysAlong (past : PartitionSet) (counts : StatementId → Nat) :
    List (StatementId × PartitionSet) → List VertexKey
  | [] => []
  | (s, partitions) :: steps =>
      ⟨s, partitions, past, .ofNat (counts s)⟩ ::
        keysAlong (past ∪ partitions) (Function.update counts s (counts s + 1)) steps

/-- An itinerary is determined by its statements and partitions. -/
theorem Itinerary.eq_keysAlong {p : Procedure} :
    ∀ {keys : List VertexKey} {past : PartitionSet} {counts : StatementId → Nat},
      Itinerary p past counts keys →
        keys = keysAlong past counts (keys.map fun k => (k.statement, k.partitions))
  | [], _, _, _ => rfl
  | k :: keys, past, counts, ⟨_, hpast, hindex, hrest⟩ => by
      have hhead : k = ⟨k.statement, k.partitions, past, .ofNat (counts k.statement)⟩ := by
        rw [← hpast, ← hindex, UInt32.ofNat_toNat]
      rw [List.map_cons, keysAlong, ← hrest.eq_keysAlong, ← hhead]

end PathForecast
