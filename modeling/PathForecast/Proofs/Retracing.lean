import PathForecast.Proofs.Estimates
import PathForecast.Proofs.Shares
import PathForecast.Proofs.StatementIndex

/-!
# Retracing

What a transaction has laid down stays there: its vertices keep their identities and its legs their
edges, and a look-up finds them among all that other transactions have added since. Main statements:
`layout_followAll_known`, following visits whose vertices and edges are there leads along them and
adds nothing, and `learn_retraces`, a trace that runs like a learned one takes its path.
-/

set_option autoImplicit false

namespace PathForecast

/-- Two traces of one procedure that run the same statements on the same partitions, each as its
own estimator sees them, and end alike. -/
structure RunsLike (t u : TransactionTrace × Estimator) : Prop where
  procedure : u.1.procedure = t.1.procedure
  statements : u.1.statements = t.1.statements
  partitions : ∃ sets, t.2.Estimates t.1 sets ∧ u.2.Estimates u.1 sets
  aborted : u.1.aborted = t.1.aborted

/-- A trace that runs like an accepted one is accepted and has the same itinerary. -/
theorem RunsLike.exists_resolve {t u : TransactionTrace × Estimator} (h : RunsLike t u)
    {p : Procedure} {visits : List Visit} (hvisits : t.1.resolve p t.2 = .ok visits) :
    ∃ visits', u.1.resolve p u.2 = .ok visits' ∧
      visits'.map (·.key) = visits.map (·.key) := by
  obtain ⟨hprocedure, hlength, hdeclared, sets, hsets, hnonempty, -⟩ :=
    (resolve_eq_ok_iff_estimates t.1 p t.2 visits).mp hvisits
  obtain ⟨_, ht, hkeys⟩ := exists_estimates_of_resolve hvisits
  obtain ⟨_, ht', hu⟩ := h.partitions
  rw [ht.unique hsets] at hkeys
  rw [ht'.unique hsets] at hu
  have hqueries : u.1.queries.length = t.1.queries.length := by
    simpa only [TransactionTrace.statements, List.length_map] using
      congrArg List.length h.statements
  have hresolve := (resolve_eq_ok_iff_estimates u.1 p u.2 _).mpr
    ⟨h.procedure.trans hprocedure, hqueries ▸ hlength, h.statements ▸ hdeclared, sets, hu,
      hnonempty, rfl⟩
  obtain ⟨_, hu', hkeys'⟩ := exists_estimates_of_resolve hresolve
  refine ⟨_, hresolve, ?_⟩
  rw [hkeys', hkeys, hu'.unique hu, h.statements]

namespace Graph

variable {α : Type} [Weight α]

/-! ## Known ground -/

theorem layout_traverseEdge_known {g : Graph α} {source dest : VertexId}
    (hjoined : (g.edgeBetween source dest).isSome) (sample : SampleKey) (remaining : UInt64) :
    (g.traverseEdge sample source dest remaining).layout = g.layout := by
  obtain ⟨e, he⟩ := Option.isSome_iff_exists.mp hjoined
  have hmove : (g.traverseEdge sample source dest remaining).layout =
      (g.ensureEdge source dest).1.layout :=
    (layout_updateEdge _ _ fun e => e.frame_recordHit).trans (layout_updateVertex _ _ fun _ => rfl)
  rw [hmove, ensureEdge_of_some he]

/-- Where the vertex of a visit is there and joined, a transaction goes there and adds nothing. -/
theorem follow_known {g : Graph α} (hg : g.Catalogued) {previous v : VertexId} {visit : Visit}
    (hv : g.Holds v visit.key) (hjoined : (g.edgeBetween previous v).isSome) (sample : SampleKey) :
    (g.follow sample previous visit).2 = v ∧
      (g.follow sample previous visit).1.layout = g.layout := by
  obtain ⟨k, hk, hsame⟩ := hv.query
  have hfind : g.findKey visit.key = some v :=
    (hg.findKey_eq_some_iff visit.key v).mpr ⟨k, hk, (k.same_iff visit.key _).mp hsame⟩
  have hfollow : g.follow sample previous visit =
      (g.traverseEdge sample previous v visit.remaining, v) := by
    rw [follow, ensureVertex_of_some hfind]
  rw [hfollow]
  exact ⟨rfl, layout_traverseEdge_known hjoined sample visit.remaining⟩

/-- Following visits whose vertices and legs are there leads along them and adds nothing. -/
theorem layout_followAll_known (sample : SampleKey) (visits : List Visit) :
    ∀ {g : Graph α} (previous : VertexId) {mid : List VertexId}, g.Catalogued →
      List.Forall₂ g.Holds mid (visits.map (·.key)) →
      (∀ l ∈ legs (previous :: mid), (g.edgeBetween l.1 l.2).isSome) →
      (g.followAll sample previous visits).2 = mid ∧
        (g.followAll sample previous visits).1.layout = g.layout := by
  induction visits with
  | nil =>
      intro _ _ _ _ hholds _
      cases hholds
      exact ⟨rfl, rfl⟩
  | cons visit visits ih =>
      intro g previous mid hg hholds hlegs
      cases hholds with
      | @cons v _ mid _ hv hholds =>
          obtain ⟨hnext, hlayout⟩ :=
            follow_known hg hv (hlegs (previous, v) List.mem_cons_self) sample
          have hrest := ih v (hg.of_layout hlayout)
            (hholds.imp fun _ _ => (Growth.retain hlayout).holds) fun l hl => by
              rw [edgeBetween_of_layout hlayout]
              exact hlegs l (List.mem_cons_of_mem _ hl)
          rw [followAll_cons, hnext]
          exact ⟨congrArg _ hrest.1, hrest.2.trans hlayout⟩

/-- A trace that runs like one whose path is there takes that path and adds nothing. -/
theorem exists_learn_eq_ok {g : Graph α} (hseeded : g.seeded = true)
    (hg : g.Catalogued) {path : List VertexId} {t u : TransactionTrace × Estimator}
    (htraces : g.Traces path t) (hlegs : ∀ l ∈ legs path, (g.edgeBetween l.1 l.2).isSome)
    (h : RunsLike t u) : ∃ k, g.learn u.1 u.2 = .ok (k, path) ∧ k.layout = g.layout := by
  obtain ⟨visits, mid, hvisits, rfl, hholds⟩ := htraces
  obtain ⟨visits', hvisits', hkeys⟩ := h.exists_resolve hvisits
  rw [← hkeys] at hholds
  rw [legs_concat, ← h.aborted] at hlegs
  -- entering counts, and leaves the ground as it is
  have henter := layout_enter g u.1.sampleKey u.1.elapsed
  obtain ⟨hpath, hlayout⟩ := layout_followAll_known u.1.sampleKey visits' Markers.fixed.start
    (hg.of_layout henter) (hholds.imp fun _ _ => (Growth.retain henter).holds)
    fun l hl => by
      rw [edgeBetween_of_layout henter]
      exact hlegs l (List.mem_append_left _ hl)
  have hfollowed : (g.followed u.1 visits').1.layout = g.layout := hlayout.trans henter
  have hlast : g.lastFollowed u.1 visits' = mid.getLastD Markers.fixed.start := by
    rw [lastFollowed, List.getLastD_cons, followed, hpath]
  have hjoined : ((g.followed u.1 visits').1.edgeBetween (g.lastFollowed u.1 visits')
      (terminal u.1.aborted)).isSome := by
    rw [edgeBetween_of_layout hfollowed, hlast]
    exact hlegs _ (List.mem_append_right _ (List.mem_singleton_self _))
  have hleave := layout_traverseEdge_known hjoined u.1.sampleKey 0
  refine ⟨(g.walk u.1 visits').1,
    (learn_eq_ok_iff g u.1 u.2 _).mpr ⟨hseeded, visits', hvisits', ?_⟩, ?_⟩
  · have hwalk : (g.walk u.1 visits').2 =
        Markers.fixed.start :: mid ++ [terminal t.1.aborted] := by
      rw [walk_eq, followed, hpath, h.aborted]
    rw [← hwalk]
  · rw [walk_eq]
    exact (layout_countTransaction _).trans (hleave.trans hfollowed)

/-- A trace that runs like a learned one takes the same path, whatever has been done to the graph
since, and adds no vertex and no edge. -/
theorem learn_retraces {p : Procedure} {s : ModelSettings α} {g k : Graph α}
    (hreach : Reachable p s g) {t u : TransactionTrace} {e e' : Estimator} {path : List VertexId}
    (hlearn : g.learn t e = .ok (k, path)) (cs : List Change) (hfit : (k.performAll cs).Fits)
    (h : RunsLike (t, e) (u, e')) :
    ∃ l, (k.performAll cs).learn u e' = .ok (l, path) ∧ l.layout = (k.performAll cs).layout := by
  have hmarked := marked_of_reachable hreach
  have hstep := growth_learn hmarked hlearn
  have hlater := growth_performAll cs (hstep.marked hmarked)
  have hk := hlater.fits hfit
  have hgrow := (growth_of_reachable hreach).trans (hstep.trans hlater)
  obtain ⟨hseeded, -⟩ := (learn_eq_ok_iff g t e (k, path)).mp hlearn
  have hwalked := walked_of_learn (arranged_of_reachable hreach (hstep.fits hk)) hmarked hlearn hk
  refine exists_learn_eq_ok
    (hlater.seeded_of_seeded (hstep.seeded_of_seeded hseeded))
    (hgrow.catalogued (marked_empty p s) (fun _ => catalogued_empty p s) hfit)
    (hlater.traces (traces_of_learn hmarked hlearn hk)) (fun l hl => ?_) h
  obtain ⟨j, hj⟩ := Option.isSome_iff_exists.mp ((hwalked.joined l.1 l.2).mpr (.inr hl))
  rw [hlater.edgeBetween hj]
  rfl

def detours : List Change :=
  [.learn ⟨⟨2⟩, ⟨1⟩, 0, 9, true, some ⟨1⟩, [⟨⟨10⟩, 1, 2, none⟩, ⟨⟨10⟩, 3, 4, none⟩]⟩ .recorded,
    .recompute, .addEdge ⟨3⟩ ⟨2⟩, .learn (transferTrace 3 true [10, 12, 11]) .recorded,
    .resetCounters]

/-- The transaction of other times that names its partitions goes where the first one went, through
vertices 3 and 4, though there are vertices 5 to 7 by then. -/
theorem learn_retraces_transfer :
    let t := transferTrace 1 false [10, 11]
    let u : TransactionTrace := ⟨⟨7⟩, ⟨1⟩, 20, 30, false, some ⟨5⟩,
      [⟨⟨10⟩, 21, 22, some (.singleton ⟨0⟩)⟩, ⟨⟨11⟩, 23, 24, some (.singleton ⟨0⟩)⟩]⟩
    let g := (fresh transfer (.standard : ModelSettings Rat)).perform (.learn t .recorded)
    (g.performAll detours).vertices.size = 8 ∧
      ∃ l, (g.performAll detours).learn u .recorded = .ok (l, [⟨0⟩, ⟨3⟩, ⟨4⟩, ⟨1⟩]) ∧
        l.layout = (g.performAll detours).layout := by
  intro t u g
  have hlearn : (fresh transfer .standard).learn t .recorded = .ok (g, [⟨0⟩, ⟨3⟩, ⟨4⟩, ⟨1⟩]) :=
    learn_eq_ok_perform (by decide +kernel)
  have hfit : (g.performAll detours).Fits := ⟨by decide +kernel, by decide +kernel⟩
  refine ⟨by decide +kernel, learn_retraces (Reachable.empty.step .seed) hlearn detours hfit
    ⟨rfl, rfl, ⟨[.singleton ⟨0⟩, .singleton ⟨0⟩], ?_, ?_⟩, rfl⟩⟩
  · exact ⟨⟨0⟩, rfl, .cons rfl (.cons rfl .nil)⟩
  · exact ⟨⟨5⟩, rfl, .cons rfl (.cons rfl .nil)⟩

end Graph

end PathForecast
