import PathForecast.Proofs.Ledger

/-!
# Accounting

A graph and the ledger of its history agree: folded hits are those of settled transactions, window
hits those of the current ones, for every vertex and every pair of vertices at once. Each kind of
event keeps that, so a whole history does. Main statement: `tallied_performAll`.
-/

set_option autoImplicit false

namespace PathForecast

open Ledger

/-! ## One hit count -/

/-- A hit count agrees with a ledger about the paths that satisfy `φ`. -/
structure HitCount.Counts (h : HitCount) (es : List Event) (φ : List VertexId → Bool) : Prop where
  folded : h.folded.toNat = (settled es).countP φ
  window : h.window.toNat = (current es).countP φ

namespace HitCount.Counts

variable {h : HitCount} {es : List Event} {φ : List VertexId → Bool}

/-- Neither counter can wrap before there are 2^64 learned transactions. -/
theorem sum_lt (hbound : (learned es).length < UInt64.size) :
    (settled es).countP φ + (current es).countP φ < UInt64.size := by
  have hcount : (retained es).countP φ ≤ (retained es).length := List.countP_le_length
  have hlength := length_retained_le es
  rw [← countP_retained]
  omega

theorem toNat_total (hcounts : h.Counts es φ) (hbound : (learned es).length < UInt64.size) :
    h.total.toNat = (retained es).countP φ := by
  have hsum := sum_lt (φ := φ) hbound
  rw [HitCount.toNat_total, hcounts.folded, hcounts.window, countP_retained]
  omega

theorem learned (hcounts : h.Counts es φ) (path : List VertexId)
    (hbound : (learned es).length + 1 < UInt64.size) :
    (if φ path then h.record else h).Counts (es ++ [.learned path]) φ := by
  -- the window counter is bounded by the number of transactions in the window
  have hlength : (current es).length ≤ (Ledger.learned es).length :=
    (pathsWhere_sublist _ es).length_le
  have hcount : (current es).countP φ + 1 < UInt64.size := by
    have hle : (current es).countP φ ≤ (current es).length := List.countP_le_length
    omega
  constructor
  · rw [settled_learned, ← hcounts.folded]
    split <;> rfl
  · rw [current_learned, List.countP_append, List.countP_singleton, ← hcounts.window]
    rw [← hcounts.window] at hcount
    split
    · exact toNat_add_of_lt hcount
    · rfl

theorem recompute (hcounts : h.Counts es φ) (hbound : (Ledger.learned es).length < UInt64.size) :
    h.fold.Counts (es ++ [.closed .recompute]) φ := by
  have hsum := sum_lt (φ := φ) hbound
  constructor
  · rw [settled_recompute, countP_retained, ← hcounts.folded, ← hcounts.window]
    rw [← hcounts.folded, ← hcounts.window] at hsum
    exact toNat_add_of_lt hsum
  · rw [current_closed]
    rfl

theorem reset (hcounts : h.Counts es φ) : h.discard.Counts (es ++ [.closed .reset]) φ := by
  constructor
  · rw [settled_reset, ← hcounts.folded]
    rfl
  · rw [current_closed]
    rfl

end HitCount.Counts

namespace Graph

variable {α : Type}

/-! ## Hits after a recompute and after a reset -/

theorem edgeHits_map {g k : Graph α} {f : Edge α → Edge α} {fate : HitCount → HitCount}
    (hlayout : k.layout = g.layout) (hedges : k.edges = g.edges.map f)
    (hf : ∀ e, (f e).hits = fate e.hits) (hzero : fate .zero = .zero) (s d : VertexId) :
    k.edgeHits s d = fate (g.edgeHits s d) := by
  unfold edgeHits
  rw [edgeBetween_of_layout hlayout]
  cases g.edgeBetween s d with
  | none => exact hzero.symm
  | some j =>
      rw [Option.bind_some, Option.bind_some, edge?, hedges, Array.getElem?_map, edge?]
      cases g.edges[j.slot]? with
      | none => exact hzero.symm
      | some e => exact hf e

theorem vertexHits_resetCounters (g : Graph α) (v : VertexId) :
    g.resetCounters.vertexHits v = (g.vertexHits v).discard :=
  readAt_map (·.hits) .discard rfl (fun _ => rfl) rfl v

theorem edgeHits_resetCounters (g : Graph α) (s d : VertexId) :
    g.resetCounters.edgeHits s d = (g.edgeHits s d).discard :=
  edgeHits_map (layout_resetCounters g) rfl (fun _ => rfl) rfl s d

variable [Weight α]

theorem vertexHits_closeWindow (g : Graph α) (v : VertexId) :
    g.closeWindow.vertexHits v = (g.vertexHits v).fold :=
  readAt_map (·.hits) .fold rfl (fun _ => rfl) rfl v

theorem edgeHits_closeWindow (g : Graph α) (s d : VertexId) :
    g.closeWindow.edgeHits s d = (g.edgeHits s d).fold :=
  edgeHits_map (layout_closeWindow g) rfl (fun _ => rfl) rfl s d

theorem hits_derive (e : Edge α) (sourceHits : UInt64) : (e.derive sourceHits).hits = e.hits := by
  unfold Edge.derive
  split <;> rfl

theorem edgeHits_deriveProbabilities (g : Graph α) (s d : VertexId) :
    g.deriveProbabilities.edgeHits s d = g.edgeHits s d := by
  show _ = id (g.edgeHits s d)
  refine edgeHits_map (layout_deriveProbabilities g) rfl (fun e => ?_) rfl s d
  split
  · exact hits_derive e _
  · rfl

theorem readAt_propagate {γ : Type} (view : Vertex α → γ) {absent : γ}
    (hforecast : ∀ x f, view (x.setForecast f) = view x) (g : Graph α) (v : VertexId) :
    readAt view absent g.propagate v = readAt view absent g v := by
  unfold readAt vertex? propagate
  rw [Array.getElem?_mapIdx, Option.map_map]
  congr 2
  funext x
  simp only [Function.comp_apply]
  split
  · exact hforecast x _
  · rfl

theorem vertexHits_propagate (g : Graph α) (v : VertexId) :
    g.propagate.vertexHits v = g.vertexHits v :=
  readAt_propagate (·.hits) (fun _ _ => rfl) g v

theorem edgeHits_propagate (g : Graph α) (s d : VertexId) :
    g.propagate.edgeHits s d = g.edgeHits s d := by
  unfold edgeHits
  rw [edgeBetween_of_layout (layout_propagate g)]
  rfl

variable {g k : Graph α}

/-- What a recompute does to every vertex, forecasts aside, it does to what the vertices show. -/
theorem readAt_recompute {γ : Type} (view : Vertex α → γ) (t : γ → γ) {absent : γ}
    (hforecast : ∀ x f, view (x.setForecast f) = view x)
    (hclose : ∀ x, view ((x.clearForecast.settleTimes g.finishedKeys).foldHits) = t (view x))
    (habsent : t absent = absent) (h : g.recompute = .ok k) (v : VertexId) :
    readAt view absent k v = t (readAt view absent g v) := by
  obtain ⟨_, _, rfl⟩ := (recompute_eq_ok_iff g k).mp h
  exact (readAt_propagate view hforecast _ v).trans (readAt_map view t rfl hclose habsent v)

theorem vertexHits_recompute (h : g.recompute = .ok k) (v : VertexId) :
    k.vertexHits v = (g.vertexHits v).fold :=
  readAt_recompute (·.hits) .fold (fun _ _ => rfl) (fun _ => rfl) rfl h v

theorem edgeHits_recompute (h : g.recompute = .ok k) (s d : VertexId) :
    k.edgeHits s d = (g.edgeHits s d).fold := by
  obtain ⟨_, _, rfl⟩ := (recompute_eq_ok_iff g k).mp h
  calc g.closeWindow.deriveProbabilities.propagate.edgeHits s d
      = g.closeWindow.deriveProbabilities.edgeHits s d := edgeHits_propagate _ s d
    _ = g.closeWindow.edgeHits s d := edgeHits_deriveProbabilities _ s d
    _ = (g.edgeHits s d).fold := edgeHits_closeWindow g s d

theorem transactions_recompute (h : g.recompute = .ok k) :
    k.transactionCount = g.transactionCount ∧
      k.transactionsAtRecompute = g.transactionCount := by
  obtain ⟨_, _, rfl⟩ := (recompute_eq_ok_iff g k).mp h
  exact ⟨rfl, rfl⟩

theorem exists_recompute (hg : g.Arranged) (h : g.seeded = true) : ∃ k, g.recompute = .ok k :=
  Anchored.exists_recompute hg.ends h

/-! ## Accepted and refused changes -/

theorem perform_of_learn {t : TransactionTrace} {estimator : Estimator}
    {r : Graph α × List VertexId} (h : g.learn t estimator = .ok r) :
    g.perform (.learn t estimator) = r.1 := by
  simp [perform, orUnchanged, h]

theorem learn_eq_ok_perform {g : Graph α} {t : TransactionTrace} {estimator : Estimator}
    {path : List VertexId} (h : (g.learn t estimator).toOption.map (·.2) = some path) :
    g.learn t estimator = .ok (g.perform (.learn t estimator), path) := by
  obtain ⟨r, hr, rfl⟩ := Option.map_eq_some_iff.mp h
  have hlearn : g.learn t estimator = .ok r := eq_ok_of_toOption hr
  rw [perform_of_learn hlearn, hlearn]

theorem perform_of_refused {t : TransactionTrace} {estimator : Estimator} {fault : Fault}
    (h : g.learn t estimator = .error fault) : g.perform (.learn t estimator) = g := by
  simp [perform, orUnchanged, h]

theorem perform_of_recompute (h : g.recompute = .ok k) : g.perform .recompute = k := by
  simp [perform, h, Except.toOption]

/-! ## The ledger of a history -/

/-- What a change adds to the ledger. A trace that is refused adds nothing. -/
def event? (g : Graph α) : Change → Option Event
  | .learn t estimator => (g.learn t estimator).toOption.map fun r => .learned r.2
  | .recompute => some (.closed .recompute)
  | .resetCounters => some (.closed .reset)
  | _ => none

def ledger (g : Graph α) : List Change → List Event
  | [] => []
  | c :: cs => (g.event? c).toList ++ (g.perform c).ledger cs

/-- A graph that has learned, recomputed and reset as the ledger says. -/
structure Tallied (g : Graph α) (es : List Event) : Prop where
  seeded : g.seeded = true
  marked : g.Marked
  arranged : g.Arranged
  vertices : ∀ v, (g.vertexHits v).Counts es fun path => v ∈ path
  edges : ∀ s d, (g.edgeHits s d).Counts es fun path => (s, d) ∈ legs path
  routes : ∀ path ∈ learned es, g.Route path
  /-- Two vertices are joined if some learned transaction has stepped from one to the other. -/
  joined : ∀ s d, (g.edgeBetween s d).isSome ↔ ∃ path ∈ learned es, (s, d) ∈ legs path
  transactionCount : g.transactionCount.toNat = (learned es).length
  sinceRecompute : g.transactionCount.toNat =
    g.transactionsAtRecompute.toNat + (current es).length

theorem vertexHits_fresh (p : Procedure) (s : ModelSettings α) (v : VertexId) :
    (Graph.fresh p s).vertexHits v = .zero := by
  rw [Graph.fresh, seed_of_unseeded rfl]
  show ((((Graph.empty p s).pushVertex .start).pushVertex .commit).pushVertex .abort).vertexHits v =
    .zero
  rw [vertexHits_pushVertex, vertexHits_pushVertex, vertexHits_pushVertex]
  rfl

theorem edgeBetween_fresh (p : Procedure) (s : ModelSettings α) (source dest : VertexId) :
    (Graph.fresh p s).edgeBetween source dest = none := by
  rw [Graph.fresh, edgeBetween_seed rfl]
  rfl

theorem fits_fresh (p : Procedure) (s : ModelSettings α) : (Graph.fresh p s).Fits := by
  have hsize : (Graph.fresh p s).vertices.size = 3 := rfl
  have hedges : (Graph.fresh p s).edges.size = 0 := rfl
  refine ⟨?_, ?_⟩
  · rw [hsize]; decide
  · rw [hedges]; decide

theorem tallied_fresh (p : Procedure) (s : ModelSettings α) : (Graph.fresh p s).Tallied [] where
  seeded := rfl
  marked := marked_seed (marked_empty p s) rfl
  arranged := (arranged_empty p s).seed rfl (fits_fresh p s)
  vertices v := by
    rw [vertexHits_fresh]
    exact ⟨rfl, rfl⟩
  edges source dest := by
    rw [edgeHits, edgeBetween_fresh]
    exact ⟨rfl, rfl⟩
  routes := nofun
  joined source dest := by
    rw [edgeBetween_fresh]
    simp [learned, pathsWhere]
  transactionCount := rfl
  sinceRecompute := rfl

namespace Tallied

variable {es : List Event}

theorem learn (hg : g.Tallied es) {t : TransactionTrace} {estimator : Estimator}
    {path : List VertexId} (h : g.learn t estimator = .ok (k, path)) (hfit : k.Fits)
    (hbound : (learned es).length + 1 < UInt64.size) : k.Tallied (es ++ [.learned path]) := by
  have hwalked := walked_of_learn hg.arranged hg.marked h hfit
  have hlearned := learned_learned es path
  have hcount : k.transactionCount.toNat = g.transactionCount.toNat + 1 := by
    rw [hwalked.transactionCount]
    rw [← hg.transactionCount] at hbound
    exact toNat_add_of_lt hbound
  refine ⟨hwalked.growth.seeded_of_seeded hg.seeded, hwalked.growth.marked hg.marked,
    hwalked.growth.arranged (fun _ => hg.arranged) hfit, fun v => ?_, fun s d => ?_, ?_,
    fun s d => ?_, ?_, ?_⟩
  · rw [hwalked.vertexHits]
    simpa using (hg.vertices v).learned path hbound
  · rw [hwalked.edgeHits]
    simpa using (hg.edges s d).learned path hbound
  · rw [hlearned]
    intro q hq
    rcases List.mem_append.mp hq with hq | hq
    · exact hwalked.growth.route (hg.routes q hq)
    · rw [List.mem_singleton.mp hq]
      exact hwalked.route
  · rw [hwalked.joined, hg.joined, hlearned]
    simp [or_and_right, exists_or]
  · rw [hcount, hlearned, hg.transactionCount, List.length_append, List.length_singleton]
  · rw [hcount, current_learned, hwalked.transactionsAtRecompute, hg.sinceRecompute,
      List.length_append, List.length_singleton, Nat.add_assoc]

/-- Closing a window changes the counts alone: both closes do so in their own way. -/
theorem close (hg : g.Tallied es) {how : Close} {fate : HitCount → HitCount}
    (hlayout : k.layout = g.layout)
    (hfate : ∀ {h : HitCount} {φ : List VertexId → Bool}, h.Counts es φ →
      (fate h).Counts (es ++ [.closed how]) φ)
    (hvertices : ∀ v, k.vertexHits v = fate (g.vertexHits v))
    (hedges : ∀ s d, k.edgeHits s d = fate (g.edgeHits s d))
    (hcount : k.transactionCount = g.transactionCount)
    (hsince : k.transactionsAtRecompute = k.transactionCount) :
    k.Tallied (es ++ [.closed how]) := by
  have hgrow : Growth g k := .retain hlayout
  have hlearned := learned_closed es how
  refine ⟨hgrow.seeded_of_seeded hg.seeded, hgrow.marked hg.marked, hg.arranged.of_layout hlayout,
    fun v => ?_, fun s d => ?_, ?_, fun s d => ?_, ?_, ?_⟩
  · rw [hvertices]
    exact hfate (hg.vertices v)
  · rw [hedges]
    exact hfate (hg.edges s d)
  · rw [hlearned]
    exact fun path hpath => hgrow.route (hg.routes path hpath)
  · rw [edgeBetween_of_layout hlayout, hlearned]
    exact hg.joined s d
  · rw [hcount, hlearned, hg.transactionCount]
  · rw [hsince, current_closed, List.length_nil, Nat.add_zero]

theorem recompute (hg : g.Tallied es) (h : g.recompute = .ok k)
    (hbound : (learned es).length < UInt64.size) :
    k.Tallied (es ++ [.closed .recompute]) := by
  obtain ⟨hcount, hsince⟩ := transactions_recompute h
  exact hg.close (layout_of_recompute h) (fun hcounts => hcounts.recompute hbound)
    (vertexHits_recompute h) (edgeHits_recompute h) hcount (hsince.trans hcount.symm)

theorem resetCounters (hg : g.Tallied es) : g.resetCounters.Tallied (es ++ [.closed .reset]) :=
  hg.close (layout_resetCounters g) (fun hcounts => hcounts.reset)
    (vertexHits_resetCounters g) (edgeHits_resetCounters g) rfl rfl

end Tallied

theorem growth_performAll (cs : List Change) :
    ∀ {g : Graph α}, g.Marked → Growth g (g.performAll cs) := by
  induction cs with
  | nil => exact fun _ => .refl _
  | cons c cs ih =>
      intro g hg
      exact (hg.perform_growth c).trans (ih ((hg.perform_growth c).marked hg))

theorem growth_performAll_append {g : Graph α} (hg : g.Marked) (cs ds : List Change) :
    Growth (g.performAll cs) (g.performAll (cs ++ ds)) := by
  rw [performAll_append]
  exact growth_performAll ds ((growth_performAll cs hg).marked hg)

section History

variable {motive : Graph α → List Event → Prop}
  (learn : ∀ {g k : Graph α} {es : List Event} {t : TransactionTrace} {estimator : Estimator}
    {path : List VertexId}, g.Tallied es → k.Tallied (es ++ [.learned path]) →
    g.learn t estimator = .ok (k, path) → motive g es → motive k (es ++ [.learned path]))
  (recompute : ∀ {g k : Graph α} {es : List Event}, g.Tallied es →
    k.Tallied (es ++ [.closed .recompute]) → (learned es).length < UInt64.size →
    g.recompute = .ok k → motive g es → motive k (es ++ [.closed .recompute]))
  (reset : ∀ {g : Graph α} {es : List Event}, g.Tallied es → motive g es →
    motive g.resetCounters (es ++ [.closed .reset]))

include learn recompute reset

/-- One change: the ledger grows by its event. -/
theorem history_step {c : Change} (hc : c.Observes) {g : Graph α} {es : List Event}
    (hg : g.Tallied es) (h : motive g es)
    (hbound : (learned (es ++ (g.event? c).toList)).length < UInt64.size)
    (hfit : (g.perform c).Fits) :
    (g.perform c).Tallied (es ++ (g.event? c).toList) ∧
      motive (g.perform c) (es ++ (g.event? c).toList) := by
  cases hc with
  | learn t estimator =>
      cases hlearn : g.learn t estimator with
      | error fault =>
          rw [perform_of_refused hlearn]
          simpa [event?, hlearn, Except.toOption] using ⟨hg, h⟩
      | ok r =>
          have hevent : g.event? (.learn t estimator) = some (.learned r.2) := by
            simp [event?, hlearn, Except.toOption]
          rw [hevent] at hbound ⊢
          rw [perform_of_learn hlearn] at hfit ⊢
          rw [Option.toList_some, learned_learned, List.length_append] at hbound
          have hk := hg.learn hlearn hfit hbound
          exact ⟨hk, learn hg hk hlearn h⟩
  | recompute =>
      obtain ⟨k, hk⟩ := exists_recompute hg.arranged hg.seeded
      rw [event?, Option.toList_some, learned_closed] at hbound
      rw [perform_of_recompute hk]
      exact ⟨hg.recompute hk hbound, recompute hg (hg.recompute hk hbound) hbound hk h⟩
  | resetCounters => exact ⟨hg.resetCounters, reset hg h⟩

/-- What learning, recomputing and resetting keep, a whole history keeps. The counts of the graph
are those of its ledger all along. -/
theorem history_induction (cs : List Change) :
    ∀ {g : Graph α} {es : List Event}, g.Tallied es → motive g es → (∀ c ∈ cs, c.Observes) →
      (learned (es ++ g.ledger cs)).length < UInt64.size → (g.performAll cs).Fits →
      (g.performAll cs).Tallied (es ++ g.ledger cs) ∧
        motive (g.performAll cs) (es ++ g.ledger cs) := by
  induction cs with
  | nil =>
      intro g es hg h _ _ _
      rw [ledger, List.append_nil]
      exact ⟨hg, h⟩
  | cons c cs ih =>
      intro g es hg h hcs hbound hfit
      have hrest : Growth (g.perform c) ((g.perform c).performAll cs) :=
        growth_performAll cs ((hg.marked.perform_growth c).marked hg.marked)
      rw [ledger, ← List.append_assoc] at hbound ⊢
      have hprefix : (learned (es ++ (g.event? c).toList)).length < UInt64.size := by
        rw [learned_append, List.length_append] at hbound
        omega
      obtain ⟨hstep, hmotive⟩ := history_step learn recompute reset (hcs c List.mem_cons_self) hg h
        hprefix (hrest.fits hfit)
      exact ih hstep hmotive (fun d hd => hcs d (List.mem_cons_of_mem _ hd)) hbound hfit

end History

/-- The counts of a graph are those of its ledger after every history of learning, recomputing and
resetting. -/
theorem tallied_performAll (cs : List Change) {g : Graph α} {es : List Event} (hg : g.Tallied es)
    (hcs : ∀ c ∈ cs, c.Observes) (hbound : (learned (es ++ g.ledger cs)).length < UInt64.size)
    (hfit : (g.performAll cs).Fits) : (g.performAll cs).Tallied (es ++ g.ledger cs) :=
  (history_induction (motive := fun _ _ => True) (fun _ _ _ _ => trivial)
    (fun _ _ _ _ _ => trivial) (fun _ _ => trivial) cs hg trivial hcs hbound hfit).1

end Graph

end PathForecast
