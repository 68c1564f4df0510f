import Mathlib
import PathForecast.Proofs.Conservation
import PathForecast.Proofs.Forecasts

/-!
# Trained graphs

A graph is trained by a history of learning and recomputing that ends with a recompute. Nothing is
thrown away in such a history, so the ledger's counts are those of all learned transactions, and the
recompute has turned them into probabilities. Main statements: `Trained.probability_eq`, an edge has
the share of its source's transactions, and `Trained.sum_probability`, the shares add up to one.
Where resets have thrown transactions away, both hold at the vertices that still have hits
(`Refreshed.sum_probability`).
-/

set_option autoImplicit false

namespace PathForecast

open Ledger

/-! ## Exact arithmetic -/

theorem least_rat (a b : Rat) : Weight.least a b = min a b := by
  show (if b < a then b else a) = min a b
  split
  · next h => exact (min_eq_right h.le).symm
  · next h => exact (min_eq_left (not_lt.mp h)).symm

theorem ratio_rat (a b : UInt64) : (Weight.ratio a b : Rat) = a.toNat / b.toNat := rfl

/-! ## Histories without resets -/

/-- The changes of a training history. -/
inductive Change.Trains : Change → Prop
  | learn (t : TransactionTrace) (estimator : Estimator) : Trains (.learn t estimator)
  | recompute : Trains .recompute

theorem Change.Trains.observes {c : Change} (h : c.Trains) : c.Observes := by
  cases h with
  | learn t estimator => exact .learn t estimator
  | recompute => exact .recompute

theorem Ledger.retained_eq_learned {es : List Event} (h : Event.closed .reset ∉ es) :
    retained es = learned es := by
  have hfirst : ∀ fs : List Event, Event.closed .reset ∉ fs → firstClose fs ≠ some .reset := by
    intro fs hfs
    induction fs with
    | nil => nofun
    | cons e fs ih =>
        cases e with
        | learned path => exact ih fun hmem => hfs (List.mem_cons_of_mem _ hmem)
        | closed how =>
            rintro ⟨⟩
            exact hfs List.mem_cons_self
  induction es with
  | nil => rfl
  | cons e es ih =>
      have hrest : Event.closed .reset ∉ es := fun hmem => h (List.mem_cons_of_mem _ hmem)
      cases e with
      | closed how => exact ih hrest
      | learned path =>
          have hkeep : decide (firstClose es ≠ some .reset) = true :=
            decide_eq_true (hfirst es hrest)
          show pathsWhere _ (.learned path :: es) = pathsWhere _ (.learned path :: es)
          rw [pathsWhere, pathsWhere, if_pos hkeep, if_pos rfl]
          exact congrArg (path :: ·) (ih hrest)

namespace Graph

variable {α : Type} [Weight α]

theorem reset_not_mem_ledger (cs : List Change) :
    ∀ {g : Graph α}, (∀ c ∈ cs, c.Trains) → Event.closed .reset ∉ g.ledger cs := by
  induction cs with
  | nil => exact fun _ => List.not_mem_nil
  | cons c cs ih =>
      intro g hcs hmem
      rcases List.mem_append.mp hmem with hmem | hmem
      · cases hcs c List.mem_cons_self with
        | learn t estimator =>
            obtain ⟨r, -, hr⟩ := Option.map_eq_some_iff.mp (Option.mem_toList.mp hmem)
            cases hr
        | recompute => cases Option.mem_toList.mp hmem
      · exact ih (fun d hd => hcs d (List.mem_cons_of_mem _ hd)) hmem

/-- A graph that a history of learning, recomputing and resetting has left right after a
recompute. -/
structure Refreshed (r : Graph α) (es : List Event) : Prop where
  tallied : r.Tallied es
  recomputed : ∃ g : Graph α, g.Arranged ∧ g.recompute = .ok r
  bound : (learned es).length < UInt64.size

/-- A graph that a history of learning and recomputing has left right after a recompute. -/
structure Trained (r : Graph α) (es : List Event) : Prop where
  tallied : r.Tallied es
  recomputed : ∃ g : Graph α, g.Arranged ∧ g.recompute = .ok r
  bound : (learned es).length < UInt64.size
  kept : retained es = learned es

theorem ledger_append (cs ds : List Change) :
    ∀ {g : Graph α}, g.ledger (cs ++ ds) = g.ledger cs ++ (g.performAll cs).ledger ds := by
  induction cs with
  | nil => exact fun {_} => rfl
  | cons c cs ih =>
      intro g
      rw [List.cons_append, ledger, ledger, ih, List.append_assoc, performAll_cons]

theorem performAll_recompute {g r : Graph α} {cs : List Change}
    (h : (g.performAll cs).recompute = .ok r) : g.performAll (cs ++ [Change.recompute]) = r := by
  rw [performAll_append]
  show (g.performAll cs).recompute.toOption.getD _ = r
  rw [h]
  rfl

theorem learned_ledger_recompute {g : Graph α} (cs : List Change) :
    learned (g.ledger (cs ++ [Change.recompute])) = learned (g.ledger cs) := by
  rw [ledger_append]
  exact learned_closed _ .recompute

theorem refreshed_performAll (p : Procedure) (s : ModelSettings α) (cs : List Change)
    (hcs : ∀ c ∈ cs, c.Observes)
    (hbound : (learned ((fresh p s).ledger cs)).length < UInt64.size)
    (hfit : ((fresh p s).performAll cs).Fits) :
    ((fresh p s).performAll (cs ++ [Change.recompute])).Refreshed
      ((fresh p s).ledger (cs ++ [Change.recompute])) := by
  have hg : ((fresh p s).performAll cs).Tallied ((fresh p s).ledger cs) :=
    tallied_performAll cs (tallied_fresh p s) hcs hbound hfit
  obtain ⟨r, hr⟩ := exists_recompute hg.arranged hg.seeded
  have hledger : (fresh p s).ledger (cs ++ [Change.recompute]) =
      (fresh p s).ledger cs ++ [.closed .recompute] := ledger_append cs _
  refine ⟨?_, ⟨(fresh p s).performAll cs, hg.arranged, ?_⟩, ?_⟩
  · rw [performAll_recompute hr, hledger]
    exact hg.recompute hr hbound
  · rw [performAll_recompute hr]
    exact hr
  · rw [learned_ledger_recompute]
    exact hbound

theorem trained_performAll (p : Procedure) (s : ModelSettings α) (cs : List Change)
    (hcs : ∀ c ∈ cs, c.Trains)
    (hbound : (learned ((fresh p s).ledger cs)).length < UInt64.size)
    (hfit : ((fresh p s).performAll cs).Fits) :
    ((fresh p s).performAll (cs ++ [Change.recompute])).Trained
      ((fresh p s).ledger (cs ++ [Change.recompute])) := by
  have hr := refreshed_performAll p s cs (fun c hc => (hcs c hc).observes) hbound hfit
  have hreset : Event.closed .reset ∉ (fresh p s).ledger (cs ++ [Change.recompute]) := by
    refine reset_not_mem_ledger _ fun c hc => ?_
    rcases List.mem_append.mp hc with hc | hc
    · exact hcs c hc
    · rw [List.mem_singleton.mp hc]
      exact .recompute
  exact ⟨hr.tallied, hr.recomputed, hr.bound, retained_eq_learned hreset⟩

def lessons (ts : List (TransactionTrace × Estimator)) : List Change :=
  ts.map fun t => .learn t.1 t.2

theorem trains_lessons (ts : List (TransactionTrace × Estimator)) :
    ∀ c ∈ lessons ts, c.Trains := by
  intro c hc
  obtain ⟨t, -, rfl⟩ := List.mem_map.mp hc
  exact .learn t.1 t.2

theorem trained_lessons (p : Procedure) (s : ModelSettings α)
    (ts : List (TransactionTrace × Estimator))
    (hbound : (learned ((fresh p s).ledger (lessons ts))).length < UInt64.size)
    (hfit : ((fresh p s).performAll (lessons ts)).Fits) :
    ((fresh p s).performAll (lessons ts ++ [Change.recompute])).Trained
      ((fresh p s).ledger (lessons ts ++ [Change.recompute])) :=
  trained_performAll p s (lessons ts) (trains_lessons ts) hbound hfit

theorem settings_performAll (p : Procedure) (s : ModelSettings α) (cs : List Change) :
    ((fresh p s).performAll cs).settings = s :=
  (growth_performAll cs (tallied_fresh p s).marked).settings_eq

/-! ## Edge probabilities -/

theorem probability_derive (e : Edge α) {sourceHits : UInt64} (h : sourceHits ≠ 0) :
    (e.derive sourceHits).probability =
      Weight.least (Weight.ratio (e.derive sourceHits).hits.total sourceHits) 1 := by
  rw [hits_derive, Edge.derive, if_neg h]

/-- A recompute derives the probability of an edge from the hits of its source. -/
theorem exists_edge_recompute {g r : Graph α} (h : g.recompute = .ok r) {e : Edge α}
    (he : e ∈ r.edges) {x : Vertex α} (hx : r.vertex? e.source = some x) :
    ∃ e₀ ∈ g.edges, e = e₀.foldHits.derive x.hits.total := by
  have hlayout : r.layout = g.closeWindow.layout :=
    (layout_of_recompute h).trans (layout_closeWindow g).symm
  obtain ⟨x₀, hx₀, -⟩ : ∃ x₀, g.closeWindow.vertex? e.source = some x₀ ∧ _ :=
    vertex_of_layout hlayout hx
  obtain ⟨_, _, rfl⟩ := (recompute_eq_ok_iff g r).mp h
  -- the propagation changes no hits, so the source has those that the window was closed with
  have hhits : x.hits = x₀.hits :=
    ((hits_eq_vertexHits hx).trans (vertexHits_propagate _ e.source)).trans
      (hits_eq_vertexHits hx₀).symm
  obtain ⟨e₁, he₁, rfl⟩ := Array.mem_map.mp he
  obtain ⟨e₀, he₀, rfl⟩ := Array.mem_map.mp he₁
  refine ⟨e₀, he₀, ?_⟩
  cases hat : g.closeWindow.vertex? e₀.foldHits.source with
  | some x₁ =>
      have hsource : (e₀.foldHits.derive x₁.hits.total).source = e₀.foldHits.source :=
        congrArg EdgeFrame.source (e₀.foldHits.frame_derive x₁.hits.total)
      simp only [hat, hsource, Option.some.injEq] at hx₀ ⊢
      rw [hx₀, hhits]
  | none =>
      simp only [hat] at hx₀
      cases hx₀

/-- A recompute gives every edge whose source has hits the share of its hits. -/
theorem probability_recompute {g r : Graph α} (h : g.recompute = .ok r) {e : Edge α}
    (he : e ∈ r.edges) {x : Vertex α} (hx : r.vertex? e.source = some x)
    (hne : x.hits.total ≠ 0) :
    e.probability = Weight.least (Weight.ratio e.hits.total x.hits.total) 1 := by
  obtain ⟨e₀, -, rfl⟩ := exists_edge_recompute h he hx
  exact probability_derive e₀.foldHits hne

omit [Weight α] in
/-- Whatever two vertices are joined, some learned transaction has stepped from one to the other. -/
theorem Tallied.leads_of_joined {g : Graph α} {es : List Event} (hg : g.Tallied es)
    {v w : VertexId} (h : g.Joined v w) : g.Leads v w := by
  obtain ⟨path, hpath, hleg⟩ := (hg.joined v w).mp h
  exact (hg.routes path hpath).leads _ hleg

/-! ## After a recompute, whatever was thrown away before -/

namespace Refreshed

section Counts

variable {r : Graph α} {es : List Event} (hr : r.Refreshed es)

include hr

theorem total_vertex {v : VertexId} {x : Vertex α} (hx : r.vertex? v = some x) :
    x.hits.total.toNat = (retained es).countP fun path => v ∈ path :=
  (hr.tallied.hits_vertex hr.bound hx).1

theorem total_edge {e : Edge α} (he : e ∈ r.edges) :
    e.hits.total.toNat = (retained es).countP fun path => e.pair ∈ legs path :=
  (hr.tallied.hits_edge hr.bound (hr.tallied.arranged.edge?_id he)).1

theorem exists_source {e : Edge α} (he : e ∈ r.edges) :
    ∃ x, r.vertex? e.source = some x ∧ e.hits.total.toNat ≤ x.hits.total.toNat := by
  obtain ⟨j, hj⟩ := Array.mem_iff_getElem?.mp he
  obtain ⟨x, hx⟩ := Option.isSome_iff_exists.mp
    ((r.isSome_vertex?_iff e.source).mpr (hr.tallied.arranged.ends j e hj).1)
  refine ⟨x, hx, ?_⟩
  rw [hr.total_edge he, hr.total_vertex hx]
  refine List.countP_mono_left fun path _ hleg => ?_
  exact decide_eq_true (mem_of_mem_legs (of_decide_eq_true hleg)).1

end Counts

variable {r : Graph Rat} {es : List Event} (hr : r.Refreshed es)

include hr

/-- An edge has the share of its source's transactions that took it, if there are any. -/
theorem probability_eq {e : Edge Rat} (he : e ∈ r.edges) {x : Vertex Rat}
    (hx : r.vertex? e.source = some x) (hne : x.hits.total ≠ 0) :
    e.probability = (e.hits.total.toNat : Rat) / x.hits.total.toNat := by
  obtain ⟨g, -, hrecompute⟩ := hr.recomputed
  obtain ⟨y, hy, hle⟩ := hr.exists_source he
  rw [hx, Option.some.injEq] at hy
  subst hy
  have hpos : 0 < x.hits.total.toNat := by
    apply Nat.pos_of_ne_zero
    intro hzero
    exact hne (UInt64.toNat_inj.mp hzero)
  -- the share needs no cap
  rw [probability_recompute hrecompute he hx hne, least_rat, ratio_rat, min_eq_left]
  rw [div_le_one (by exact_mod_cast hpos)]
  exact_mod_cast hle

/-- The probabilities of the edges that leave a vertex with hits add up to one. -/
theorem sum_probability {v : VertexId} {x : Vertex Rat} (hx : r.vertex? v = some x)
    (hterminal : ∀ aborted, v ≠ terminal aborted) (hne : x.hits.total ≠ 0) :
    ((r.edgesFrom v).map (·.probability)).sum = 1 := by
  have hshare : ∀ f ∈ r.edgesFrom v,
      f.probability = (f.hits.total.toNat : Rat) / x.hits.total.toNat := by
    intro f hf
    obtain ⟨hf, hfsource⟩ := mem_edgesFrom.mp hf
    exact hr.probability_eq hf (hfsource.symm ▸ hx) hne
  have hflow : ((r.edgesFrom v).map (·.hits.total.toNat)).sum = x.hits.total.toNat := by
    rw [hr.total_vertex hx]
    exact hr.tallied.outbound_eq hr.bound hterminal
  have hzero : (x.hits.total.toNat : Rat) ≠ 0 := by
    intro hzero
    exact hne (UInt64.toNat_inj.mp (by exact_mod_cast hzero))
  calc ((r.edgesFrom v).map (·.probability)).sum
      = ((r.edgesFrom v).map fun f => (f.hits.total.toNat : Rat) / x.hits.total.toNat).sum :=
        congrArg List.sum (List.map_congr_left hshare)
    _ = (((r.edgesFrom v).map (·.hits.total.toNat)).sum : Nat) / x.hits.total.toNat := by
        rw [Nat.cast_list_sum, List.map_map]
        simp only [div_eq_mul_inv]
        exact List.sum_map_mul_right (r.edgesFrom v) _ _
    _ = 1 := by
        rw [hflow]
        exact div_self hzero

end Refreshed

/-! ## Trained graphs -/

namespace Trained

section Counts

variable {r : Graph α} {es : List Event} (hr : r.Trained es)

include hr

theorem refreshed : r.Refreshed es := ⟨hr.tallied, hr.recomputed, hr.bound⟩

theorem total_vertex {v : VertexId} {x : Vertex α} (hx : r.vertex? v = some x) :
    x.hits.total.toNat = (learned es).countP fun path => v ∈ path := by
  rw [hr.refreshed.total_vertex hx, hr.kept]

theorem total_edge {e : Edge α} (he : e ∈ r.edges) :
    e.hits.total.toNat = (learned es).countP fun path => e.pair ∈ legs path := by
  rw [hr.refreshed.total_edge he, hr.kept]

/-- Some learned transaction has taken every edge. -/
theorem total_edge_pos {e : Edge α} (he : e ∈ r.edges) : 0 < e.hits.total.toNat := by
  have hjoined := hr.tallied.arranged.joined_of_mem (mem_edgesFrom.mpr ⟨he, rfl⟩)
  obtain ⟨path, hpath, hleg⟩ := (hr.tallied.joined e.source e.dest).mp hjoined
  rw [hr.total_edge he]
  exact List.countP_pos_iff.mpr ⟨path, hpath, decide_eq_true hleg⟩

theorem exists_source {e : Edge α} (he : e ∈ r.edges) :
    ∃ x, r.vertex? e.source = some x ∧ e.hits.total.toNat ≤ x.hits.total.toNat :=
  hr.refreshed.exists_source he

/-- The source of an edge has hits. -/
theorem source_ne_zero {e : Edge α} (he : e ∈ r.edges) {x : Vertex α}
    (hx : r.vertex? e.source = some x) : x.hits.total ≠ 0 := by
  obtain ⟨y, hy, hle⟩ := hr.exists_source he
  rw [hx, Option.some.injEq] at hy
  subst hy
  intro hzero
  have hpos := (hr.total_edge_pos he).trans_le hle
  rw [hzero] at hpos
  exact absurd hpos (by decide)

theorem leads_of_joined {v w : VertexId} (h : r.Joined v w) : r.Leads v w :=
  hr.tallied.leads_of_joined h

theorem running_of_joined {v w : VertexId} (h : r.Joined v w) {s : VertexState}
    (hs : r.state? v = some s) : s.kind.isTerminal = false := by
  obtain ⟨s', d, hs', -, hprecedes⟩ := hr.leads_of_joined h
  rw [hs, Option.some.injEq] at hs'
  rw [hs']
  exact hprecedes.source

/-- No edge leaves a terminal marker. -/
theorem ne_terminal_of_joined {v w : VertexId} (h : r.Joined v w) (aborted : Bool) :
    v ≠ terminal aborted := by
  obtain ⟨s, d, hs, -, hprecedes⟩ := hr.leads_of_joined h
  exact hr.tallied.marked.ne_terminal hr.tallied.seeded hs hprecedes.source aborted

end Counts

variable {r : Graph Rat} {es : List Event} (hr : r.Trained es)

include hr

theorem outlook_eq_tally {v : VertexId} {x : Vertex Rat} (hx : r.vertex? v = some x) :
    r.outlook v =
      if x.state.kind.isTerminal then .ofTerminal r.partitions x.state.kind
      else (r.tallyAt v).forecast x.state.touched := by
  obtain ⟨g, hg, hrecompute⟩ := hr.recomputed
  rw [outlook_eq hx]
  exact forecast_recompute hg hrecompute hx

/-- An edge has the share of its source's transactions that took it. -/
theorem probability_eq {e : Edge Rat} (he : e ∈ r.edges) {x : Vertex Rat}
    (hx : r.vertex? e.source = some x) :
    e.probability = (e.hits.total.toNat : Rat) / x.hits.total.toNat :=
  hr.refreshed.probability_eq he hx (hr.source_ne_zero he hx)

theorem probability_pos {e : Edge Rat} (he : e ∈ r.edges) : 0 < e.probability := by
  obtain ⟨x, hx, hle⟩ := hr.exists_source he
  have hpos := hr.total_edge_pos he
  rw [hr.probability_eq he hx]
  exact div_pos (by exact_mod_cast hpos) (by exact_mod_cast hpos.trans_le hle)

/-- The probabilities of the edges that leave a vertex add up to one. -/
theorem sum_probability {v : VertexId} (hv : r.edgesFrom v ≠ []) :
    ((r.edgesFrom v).map (·.probability)).sum = 1 := by
  obtain ⟨e, he⟩ := List.exists_mem_of_ne_nil _ hv
  obtain ⟨hmem, rfl⟩ := mem_edgesFrom.mp he
  obtain ⟨x, hx, -⟩ := hr.exists_source hmem
  have hterminal := hr.ne_terminal_of_joined (hr.tallied.arranged.joined_of_mem he)
  exact hr.refreshed.sum_probability hx hterminal (hr.source_ne_zero hmem hx)

end Trained

end Graph

end PathForecast
