import Mathlib.Data.List.DropRight
import PathForecast.Proofs.Conservation
import PathForecast.Proofs.Samples

/-!
# Hits and samples

A reset throws the hits of a window away and does not look at its samples: those of committed
transactions are kept by the next recompute all the same. So a vertex can have more samples than
hits, but no more than the thrown-away transactions account for. Main statement:
`samples_le_performAll`, which bounds the samples of a vertex at every point of a history.
-/

set_option autoImplicit false

namespace PathForecast

namespace Ledger

/-- The learned paths that a reset has thrown away. -/
def abandoned : List Event → List (List VertexId) := pathsWhere fun how => how = some .reset

/-- The learned paths that a reset has thrown away before the last recompute. -/
def outlived (es : List Event) : List (List VertexId) :=
  abandoned (es.rdropWhile fun e => e ≠ .closed .recompute)

theorem outlived_learned (es : List Event) (path : List VertexId) :
    outlived (es ++ [.learned path]) = outlived es := by
  rw [outlived, List.rdropWhile_concat_pos _ _ _ (by simp)]
  rfl

theorem outlived_reset (es : List Event) : outlived (es ++ [.closed .reset]) = outlived es := by
  rw [outlived, List.rdropWhile_concat_pos _ _ _ (by decide)]
  rfl

/-- A learned transaction is retained or abandoned, and not both. -/
theorem countP_retained_add_abandoned (φ : List VertexId → Bool) (es : List Event) :
    (retained es).countP φ + (abandoned es).countP φ = (learned es).countP φ := by
  have hdisjoint : ∀ how : Option Close,
      ¬(decide (how ≠ some .reset) = true ∧ decide (how = some .reset) = true) := by
    rintro (_ | _ | _) <;> simp
  refine (countP_pathsWhere_or φ hdisjoint es).symm.trans ?_
  refine congrArg (fun keep => (pathsWhere keep es).countP φ) (funext fun how => ?_)
  rcases how with _ | _ | _ <;> rfl

/-- What is learned has been folded into the lifetime counts by the time of a recompute, or a reset
has thrown it away. -/
theorem countP_learned_recompute (φ : List VertexId → Bool) (es : List Event) :
    (learned es).countP φ =
      (settled (es ++ [.closed .recompute])).countP φ +
        (outlived (es ++ [.closed .recompute])).countP φ := by
  have houtlived : outlived (es ++ [.closed .recompute]) = abandoned es := by
    rw [outlived, List.rdropWhile_concat_neg _ _ _ (by decide), abandoned, pathsWhere_append]
    refine (List.append_nil _).trans ?_
    exact congrArg (pathsWhere · es) (funext fun how => by rcases how with _ | _ | _ <;> rfl)
  rw [settled_recompute, houtlived, countP_retained_add_abandoned]

end Ledger

open Ledger

theorem Timing.length_pending_record (t : Timing) (key : SampleKey) (duration : UInt64) :
    (t.record key duration).pending.length ≤ t.pending.length + 1 :=
  Nat.succ_le_succ (List.length_filter_le _ _)

namespace Graph

variable {α : Type}

/-- Every sample of a vertex comes from a learned transaction that went through it, and every kept
one from a transaction that a recompute has gone over. -/
structure Evidenced (g : Graph α) (es : List Event) (v : VertexId) : Prop where
  kept : (g.timingAt v).count.toNat ≤
    (settled es).countP (fun path => v ∈ path) + (outlived es).countP (fun path => v ∈ path)
  all : (g.timingAt v).count.toNat + (g.timingAt v).pending.length ≤
    (learned es).countP fun path => v ∈ path

namespace Evidenced

variable {g k : Graph α} {es : List Event} {v : VertexId}

theorem resetCounters (h : g.Evidenced es v) :
    g.resetCounters.Evidenced (es ++ [.closed .reset]) v := by
  refine ⟨?_, ?_⟩
  · rw [timingAt_resetCounters, settled_reset, outlived_reset]
    exact h.kept
  · rw [timingAt_resetCounters, learned_closed]
    exact h.all

variable [Weight α]

theorem fresh (p : Procedure) (s : ModelSettings α) (v : VertexId) :
    (Graph.fresh p s).Evidenced [] v := by
  refine ⟨?_, ?_⟩
  · rw [timingAt_fresh]
    exact Nat.zero_le _
  · rw [timingAt_fresh]
    exact Nat.zero_le _

theorem learn (h : g.Evidenced es v) (hg : g.Marked) {t : TransactionTrace} {estimator : Estimator}
    {path : List VertexId} (hlearn : g.learn t estimator = .ok (k, path)) (hnodup : path.Nodup) :
    k.Evidenced (es ++ [.learned path]) v := by
  have htiming := timingAt_learn hg hlearn hnodup v
  have hall := h.all
  refine ⟨?_, ?_⟩
  · have hcount : (k.timingAt v).count = (g.timingAt v).count := by
      rw [htiming]
      split <;> rfl
    rw [hcount, settled_learned, outlived_learned]
    exact h.kept
  · rw [htiming, learned_learned, List.countP_append, List.countP_singleton]
    split
    · next hv =>
        have hlength := (g.timingAt v).length_pending_record t.sampleKey
          ((Journey.mk t path).durationAt v)
        rw [if_pos (decide_eq_true hv)]
        show (g.timingAt v).count.toNat + _ ≤ _
        omega
    · exact hall.trans (Nat.le_add_right _ _)

theorem recompute (h : g.Evidenced es v) (hk : g.recompute = .ok k) :
    k.Evidenced (es ++ [.closed .recompute]) v := by
  have htiming := timingAt_recompute hk v
  -- at worst all samples that wait are kept
  have hsettle : (k.timingAt v).count.toNat ≤ (learned es).countP fun path => v ∈ path := by
    have hcount := (g.timingAt v).toNat_count_settle g.finishedKeys
    have hlength := List.length_filter_le (fun s => decide (s.1 ∈ g.finishedKeys))
      (g.timingAt v).pending
    have hall := h.all
    rw [htiming]
    omega
  refine ⟨hsettle.trans (countP_learned_recompute _ es).le, ?_⟩
  have hpending : (k.timingAt v).pending = [] := by rw [htiming, Timing.pending_settle]
  rw [hpending, learned_closed]
  exact hsettle

end Evidenced

/-! ## Histories -/

variable [Weight α]

theorem evidenced_performAll (p : Procedure) (s : ModelSettings α) (cs : List Change)
    (hcs : ∀ c ∈ cs, c.Observes)
    (hbound : (learned ((fresh p s).ledger cs)).length < UInt64.size)
    (hfit : ((fresh p s).performAll cs).Fits) :
    ((fresh p s).performAll cs).Tallied ((fresh p s).ledger cs) ∧
      ∀ v, ((fresh p s).performAll cs).Evidenced ((fresh p s).ledger cs) v := by
  refine history_induction (motive := fun g es => ∀ v, g.Evidenced es v) ?learn ?recompute ?reset
    cs (tallied_fresh p s) (Evidenced.fresh p s) hcs hbound hfit
  case learn =>
    intro g k es t estimator path hg hk hlearn h v
    have hpath : path ∈ learned (es ++ [.learned path]) := by
      rw [learned_learned]
      exact List.mem_append_right _ List.mem_cons_self
    exact (h v).learn hg.marked hlearn (hk.routes path hpath).nodup
  case recompute => exact fun _ _ _ hk h v => (h v).recompute hk
  case reset => exact fun _ h v => (h v).resetCounters

/-- At every point of a history of learning, recomputing and resetting, a vertex has at most one
kept sample for each of its hits and for each transaction through it that a reset has thrown away
before the last recompute. -/
theorem samples_le_performAll (p : Procedure) (s : ModelSettings α) (cs : List Change)
    (hcs : ∀ c ∈ cs, c.Observes)
    (hbound : (learned ((fresh p s).ledger cs)).length < UInt64.size)
    (hfit : ((fresh p s).performAll cs).Fits) :
    ∀ v x, ((fresh p s).performAll cs).vertex? v = some x →
      x.timing.count.toNat ≤ x.hits.total.toNat +
        (outlived ((fresh p s).ledger cs)).countP fun path => v ∈ path := by
  intro v x hx
  obtain ⟨hg, hevidenced⟩ := evidenced_performAll p s cs hcs hbound hfit
  have hkept := (hevidenced v).kept
  rw [timingAt_eq hx] at hkept
  rw [(hg.hits_vertex hbound hx).1, countP_retained]
  omega

def abandonedHistory : List Change :=
  [.learn (transferTrace 1 false [10]) .recorded, .resetCounters, .recompute]

/-- The recompute keeps the sample of a transaction that no hit tells of any more. -/
theorem samples_exceed_hits :
    (∀ c ∈ abandonedHistory, c.Observes) ∧
      ∃ x, ((fresh transfer (.standard : ModelSettings Rat)).performAll abandonedHistory).vertex?
          ⟨3⟩ = some x ∧ ¬ x.timing.count ≤ x.hits.total := by
  refine ⟨?_, ?_⟩
  · simp only [abandonedHistory, List.forall_mem_cons]
    exact ⟨.learn _ _, .resetCounters, .recompute, nofun⟩
  · have hcounts : (((fresh transfer (.standard : ModelSettings Rat)).performAll
        abandonedHistory).vertex? ⟨3⟩).map (fun x => (x.timing.count, x.hits.total)) =
          some (1, 0) := by decide +kernel
    obtain ⟨x, hx, hpair⟩ := Option.map_eq_some_iff.mp hcounts
    obtain ⟨hcount, htotal⟩ := Prod.mk.inj hpair
    refine ⟨x, hx, ?_⟩
    rw [hcount, htotal]
    decide

theorem samples_le_performAll_abandoned :
    let g := (fresh transfer (.standard : ModelSettings Rat)).performAll abandonedHistory
    (outlived ((fresh transfer (.standard : ModelSettings Rat)).ledger abandonedHistory)).length =
        1 ∧
      ∃ x, g.vertex? ⟨3⟩ = some x ∧ x.timing.count.toNat ≤ x.hits.total.toNat + 1 := by
  intro g
  have hobserves : ∀ c ∈ abandonedHistory, c.Observes := by
    simp only [abandonedHistory, List.forall_mem_cons]
    exact ⟨.learn _ _, .resetCounters, .recompute, nofun⟩
  have hfew : (learned ((fresh transfer (.standard : ModelSettings Rat)).ledger
      abandonedHistory)).length < UInt64.size := by decide +kernel
  have hfit : g.Fits := ⟨by decide +kernel, by decide +kernel⟩
  have hsome : (g.vertex? ⟨3⟩).isSome = true := by decide +kernel
  obtain ⟨x, hx⟩ := Option.isSome_iff_exists.mp hsome
  have hle := samples_le_performAll transfer .standard abandonedHistory hobserves hfew hfit ⟨3⟩ x hx
  have hcount : (outlived ((fresh transfer (.standard : ModelSettings Rat)).ledger
      abandonedHistory)).countP (fun path => (⟨3⟩ : VertexId) ∈ path) = 1 := by decide +kernel
  rw [hcount] at hle
  exact ⟨by decide +kernel, x, hx, hle⟩

end Graph

end PathForecast
