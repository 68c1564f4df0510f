import Mathlib
import PathForecast.Proofs.Audit.Lineage

/-!
# Recomputes after resets

A reset throws hits away and leaves the vertices and edges where they are, so a recompute can meet
a query vertex that has outbound edges and no hits. It leaves the probabilities of those edges
alone, and they have none: a vertex that ever had a share to give has kept the hits for it. Main
statements: `weighed_performAll`, a probability needs settled hits at its source, and
`sum_probability_performAll`, the sums over outbound edges after every recompute.
-/

set_option autoImplicit false

namespace PathForecast

open Ledger

namespace Graph

variable {α : Type} [Weight α]

/-! ## Probabilities and settled hits -/

/-- An edge has a probability only if some transaction through its source has been settled. -/
def Weighed (g : Graph α) (es : List Event) : Prop :=
  g.Weighs fun v a => a = 0 ∨ 0 < (settled es).countP fun path => v ∈ path

namespace Weighed

variable {g k : Graph α} {es : List Event}

theorem learn (h : g.Weighed es) {t : TransactionTrace} {estimator : Estimator}
    {path : List VertexId} (hlearn : g.learn t estimator = .ok (k, path)) :
    k.Weighed (es ++ [.learned path]) := by
  obtain ⟨-, visits, -, heq⟩ := (learn_eq_ok_iff g t estimator (k, path)).mp hlearn
  obtain ⟨rfl, -⟩ := Prod.mk.inj heq
  unfold Weighed
  rw [settled_learned]
  exact Weighs.walk (fun _ => .inl rfl) h t visits

theorem resetCounters (h : g.Weighed es) : g.resetCounters.Weighed (es ++ [.closed .reset]) := by
  unfold Weighed
  rw [settled_reset]
  intro e he
  obtain ⟨f, hf, rfl⟩ := Array.mem_map.mp he
  exact h f hf

/-- A recompute gives a probability to the edges whose source has hits, and these hits are settled
from then on. -/
theorem recompute (h : g.Weighed es) (hk : k.Tallied (es ++ [.closed .recompute]))
    (hbound : (learned es).length < UInt64.size) (hrecompute : g.recompute = .ok k) :
    k.Weighed (es ++ [.closed .recompute]) := by
  rw [← learned_closed es .recompute] at hbound
  intro e he
  obtain ⟨j, hj⟩ := Array.mem_iff_getElem?.mp he
  obtain ⟨x, hx⟩ := Option.isSome_iff_exists.mp
    ((k.isSome_vertex?_iff e.source).mpr (hk.arranged.ends j e hj).1)
  obtain ⟨e₀, he₀, rfl⟩ := exists_edge_recompute hrecompute he hx
  by_cases hzero : x.hits.total = 0
  · -- the edge is left alone
    rw [Edge.derive, if_pos hzero]
    refine (h e₀ he₀).imp_right fun hpos => ?_
    rw [settled_recompute, countP_retained]
    exact Nat.add_pos_left hpos _
  · -- nothing is current right after a recompute, so all hits are settled
    right
    have hcount := (hk.hits_vertex hbound hx).1
    rw [countP_retained, current_closed] at hcount
    have hpos : 0 < x.hits.total.toNat := by
      apply Nat.pos_of_ne_zero
      intro hnone
      exact hzero (UInt64.toNat_inj.mp hnone)
    rwa [hcount] at hpos

end Weighed

theorem weighed_fresh (p : Procedure) (s : ModelSettings α) : (fresh p s).Weighed [] :=
  fun e he => absurd he (Array.not_mem_empty e)

theorem weighed_performAll (p : Procedure) (s : ModelSettings α) (cs : List Change)
    (hcs : ∀ c ∈ cs, c.Observes)
    (hbound : (learned ((fresh p s).ledger cs)).length < UInt64.size)
    (hfit : ((fresh p s).performAll cs).Fits) :
    ((fresh p s).performAll cs).Weighed ((fresh p s).ledger cs) :=
  (history_induction (motive := Weighed) (fun _ _ hlearn h => h.learn hlearn)
    (fun _ hk hbound hrecompute h => h.recompute hk hbound hrecompute)
    (fun _ h => h.resetCounters) cs (tallied_fresh p s) (weighed_fresh p s) hcs hbound hfit).2

/-! ## After a recompute -/

omit [Weight α] in
theorem Tallied.laid {g : Graph α} {es : List Event} (hg : g.Tallied es) : g.Laid :=
  ⟨hg.seeded, hg.marked, hg.arranged, fun _ _ => hg.leads_of_joined⟩

namespace Refreshed

variable {r : Graph Rat} {es : List Event} (hr : r.Refreshed es)

include hr

/-- The edges that leave a vertex without hits have no probability. -/
theorem sum_probability_eq_zero (hweighed : r.Weighed es) {v : VertexId} {x : Vertex Rat}
    (hx : r.vertex? v = some x) (hzero : x.hits.total = 0) :
    ((r.edgesFrom v).map (·.probability)).sum = 0 := by
  apply List.sum_eq_zero
  intro a ha
  obtain ⟨e, he, rfl⟩ := List.mem_map.mp ha
  obtain ⟨hmem, rfl⟩ := mem_edgesFrom.mp he
  rcases hweighed e hmem with hnone | hpos
  · exact hnone
  · -- settled hits would be hits
    have hcount := hr.total_vertex hx
    rw [hzero, countP_retained, UInt64.toNat_zero] at hcount
    omega

/-- The probabilities of the edges that leave a query vertex add up to one, or to zero if the vertex
has no hits. -/
theorem sum_probability_eq (hweighed : r.Weighed es) {v : VertexId} {x : Vertex Rat}
    (hx : r.vertex? v = some x) (hquery : x.state.isQuery = true) :
    ((r.edgesFrom v).map (·.probability)).sum = if x.hits.total = 0 then 0 else 1 := by
  by_cases hzero : x.hits.total = 0
  · rw [if_pos hzero]
    exact hr.sum_probability_eq_zero hweighed hx hzero
  · rw [if_neg hzero]
    obtain ⟨key, hkey⟩ := x.state.isQuery_iff.mp hquery
    have hstate : r.state? v = some (.query key) := by rw [state?_eq hx, hkey]
    exact hr.sum_probability hx (hr.tallied.marked.ne_terminal hr.tallied.seeded hstate rfl) hzero

/-- An outbound sum is reported only where there are no hits, unless the tolerance is negative. -/
theorem of_probabilityNotConserved (hweighed : r.Weighed es) {v : VertexId} {total : Rat}
    (h : r.validate = .error (.probabilityNotConserved v total)) :
    r.settings.probabilityEpsilon < 0 ∨ ∃ x, r.vertex? v = some x ∧
      x.state.isQuery = true ∧ x.hits.total = 0 ∧ total = 0 := by
  generalize hw : Violation.probabilityNotConserved v total = w at h
  cases reports_of_validate h with
  | element x => cases hw
  | pair e he => cases hw
  | edge e he hedge =>
      obtain ⟨_, _, rfl⟩ := hr.tallied.laid.edgeViolation_eq he hedge
      cases hw
  | inbound x hx hin =>
      obtain rfl := inboundViolation_cases hin
      cases hw
  | outbound x hx hout =>
      obtain ⟨hquery, rfl | ⟨rfl, -, hfar⟩⟩ := outboundViolation_cases hout
      · cases hw
      · obtain ⟨hmem, htotals⟩ := hr.tallied.arranged.mem_verticesWithTotals.mp hx
        have hvertex := hr.tallied.arranged.vertex?_id hmem
        have hsum := hr.sum_probability_eq hweighed hvertex hquery
        rw [htotals, outboundProbability_totalsAt, hsum] at hfar hw
        obtain ⟨rfl, rfl⟩ := Violation.probabilityNotConserved.inj hw
        by_cases hzero : x.1.hits.total = 0
        · exact .inr ⟨x.1, hvertex, hquery, hzero, if_pos hzero⟩
        · -- the sum is one, which is off by nothing
          left
          rw [if_neg hzero, sub_self] at hfar
          exact of_decide_eq_true hfar

end Refreshed

/-- After any history of learning, recomputing and resetting that ends with a recompute, the
probabilities of the edges that leave a query vertex add up to exactly one if the vertex has hits,
and to exactly zero if all of them have been thrown away. So an audit reports an outbound sum only
at a vertex without hits. -/
theorem sum_probability_performAll (p : Procedure) (s : ModelSettings Rat) (cs : List Change)
    (hcs : ∀ c ∈ cs, c.Observes)
    (hbound : (learned ((fresh p s).ledger cs)).length < UInt64.size)
    (hfit : ((fresh p s).performAll cs).Fits) :
    let r := (fresh p s).performAll (cs ++ [Change.recompute])
    (∀ v x, r.vertex? v = some x → x.state.isQuery = true → r.edgesFrom v ≠ [] →
      ((r.edgesFrom v).map (·.probability)).sum = if x.hits.total = 0 then 0 else 1) ∧
    ∀ v total, r.validate = .error (.probabilityNotConserved v total) →
      s.probabilityEpsilon < 0 ∨ ∃ x, r.vertex? v = some x ∧ x.state.isQuery = true ∧
        x.hits.total = 0 ∧ total = 0 := by
  intro r
  have hr := refreshed_performAll p s cs hcs hbound hfit
  have hweighed : r.Weighed ((fresh p s).ledger (cs ++ [Change.recompute])) := by
    have hg := tallied_performAll cs (tallied_fresh p s) hcs hbound hfit
    obtain ⟨k, hk⟩ := exists_recompute hg.arranged hg.seeded
    have hr' : r = k := performAll_recompute hk
    rw [hr', ledger_append]
    exact (weighed_performAll p s cs hcs hbound hfit).recompute (hg.recompute hk hbound) hbound hk
  have hsettings : r.settings = s := settings_performAll p s _
  constructor
  · intro v x hx hquery _
    exact hr.sum_probability_eq hweighed hx hquery
  · intro v total h
    rw [← hsettings]
    exact hr.of_probabilityNotConserved hweighed h

/-- A transaction that a reset throws away before any recompute, and one that stays. -/
def discarded : List Change :=
  [.learn (transferTrace 1 false [10]) .recorded, .resetCounters,
    .learn (transferTrace 2 false [11]) .recorded]

theorem observes_discarded : ∀ c ∈ discarded, c.Observes := by
  simp only [discarded, List.forall_mem_cons]
  exact ⟨.learn _ _, .resetCounters, .learn _ _, nofun⟩

def reportedSum? (g : Graph Rat) : Option (VertexId × Rat) :=
  match g.validate with
  | .error (.probabilityNotConserved v total) => some (v, total)
  | _ => none

theorem validate_of_reportedSum? {g : Graph Rat} {v : VertexId} {total : Rat}
    (h : g.reportedSum? = some (v, total)) :
    g.validate = .error (.probabilityNotConserved v total) := by
  unfold reportedSum? at h
  split at h
  · next hvalidate =>
      cases h
      exact hvalidate
  · cases h

/-- The vertex of the first transaction keeps its outbound edge, without any probability, and the
audit right after the recompute reports it. -/
theorem sum_probability_discarded :
    (∀ c ∈ discarded, c.Observes) ∧
      let r := (fresh transfer (.standard : ModelSettings Rat)).performAll
        (discarded ++ [Change.recompute])
      (r.vertex? ⟨3⟩).any (·.state.isQuery) = true ∧ r.edgesFrom ⟨3⟩ ≠ [] ∧
        ((r.edgesFrom ⟨3⟩).map (·.probability)).sum = 0 ∧
        r.validate = .error (.probabilityNotConserved ⟨3⟩ 0) := by
  refine ⟨observes_discarded, by decide +kernel, by decide +kernel, by decide +kernel, ?_⟩
  apply validate_of_reportedSum?
  decide +kernel

/-- The vertex of the second transaction has its hit, and its probabilities add up to one. -/
theorem sum_probability_performAll_discarded :
    let r := (fresh transfer (.standard : ModelSettings Rat)).performAll
      (discarded ++ [Change.recompute])
    ∃ x y, r.vertex? ⟨3⟩ = some x ∧ r.vertex? ⟨4⟩ = some y ∧ x.hits.total = 0 ∧
      y.hits.total = 1 ∧ ((r.edgesFrom ⟨3⟩).map (·.probability)).sum = 0 ∧
      ((r.edgesFrom ⟨4⟩).map (·.probability)).sum = 1 ∧
      ∀ v total, r.validate = .error (.probabilityNotConserved v total) →
        ∃ z, r.vertex? v = some z ∧ z.hits.total = 0 := by
  intro r
  have hlength : (learned ((fresh transfer (.standard : ModelSettings Rat)).ledger
      discarded)).length = 2 := by decide +kernel
  have hfit : ((fresh transfer (.standard : ModelSettings Rat)).performAll discarded).Fits :=
    ⟨by decide +kernel, by decide +kernel⟩
  obtain ⟨hsum, hreport⟩ := sum_probability_performAll transfer .standard discarded
    observes_discarded
    (by rw [hlength]; decide) hfit
  have hx : ((r.vertex? ⟨3⟩).map fun x => (x.state.isQuery, x.hits.total)) = some (true, 0) := by
    decide +kernel
  have hy : ((r.vertex? ⟨4⟩).map fun y => (y.state.isQuery, y.hits.total)) = some (true, 1) := by
    decide +kernel
  obtain ⟨x, hx, hx'⟩ := Option.map_eq_some_iff.mp hx
  obtain ⟨y, hy, hy'⟩ := Option.map_eq_some_iff.mp hy
  obtain ⟨hxquery, hxhits⟩ := Prod.mk.inj hx'
  obtain ⟨hyquery, hyhits⟩ := Prod.mk.inj hy'
  have hxsum := hsum ⟨3⟩ x hx hxquery (by decide +kernel)
  have hysum := hsum ⟨4⟩ y hy hyquery (by decide +kernel)
  rw [if_pos hxhits] at hxsum
  rw [if_neg (by rw [hyhits]; decide)] at hysum
  refine ⟨x, y, hx, hy, hxhits, hyhits, hxsum, hysum, fun v total h => ?_⟩
  rcases hreport v total h with hnegative | ⟨z, hz, -, hzero, -⟩
  · exact absurd hnegative (by decide +kernel)
  · exact ⟨z, hz, hzero⟩

end Graph

end PathForecast
