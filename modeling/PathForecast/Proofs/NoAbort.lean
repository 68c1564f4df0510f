import Mathlib
import PathForecast.Graph.Prediction
import PathForecast.Proofs.Training

/-!
# Predictions that nothing aborts

An aborted transaction raises the abort forecast of every vertex on its route, as long as the
propagation keeps the edges that it took from there. Edges that close a cycle are left out, and a
vertex whose aborts all lie behind such edges is predicted not to abort. Main statement:
`exists_dropped_of_predictNoAbort`; `predictNoAbort_despite_abort` is a graph in which it happens.
-/

set_option autoImplicit false

namespace PathForecast

open Ledger

/-- The forecast from a tally, read over the rationals. -/
theorem Tally.abort_forecast (t : Tally Rat) (touched : PartitionSet) :
    (t.forecast touched).abort =
      min (if t.skipped && decide (0 < t.included) then t.sum.abort / t.included
        else t.sum.abort) 1 :=
  least_rat _ 1

namespace Graph

namespace Trained

variable {r : Graph Rat} {es : List Event} (hr : r.Trained es)

include hr

/-! ## Abort forecasts -/

theorem abort_nonneg (v : VertexId) : 0 ≤ (r.outlook v).abort := by
  -- an edge that a tally includes leads to a vertex that was closed before
  induction v using hr.tallied.arranged.wellFounded_closedBefore.induction with
  | _ v ih =>
      cases hx : r.vertex? v with
      | none =>
          rw [outlook, hx]
          exact le_rfl
      | some x =>
          rw [hr.outlook_eq_tally hx]
          split
          · show 0 ≤ if x.state.kind = .abort then (1 : Rat) else 0
            split
            · exact zero_le_one
            · exact le_rfl
          · have hsum : 0 ≤ (r.tallyAt v).sum.abort := by
              rw [abort_tallyAt]
              refine includedSum_nonneg fun e he hclosed => ?_
              exact mul_nonneg (hr.probability_pos (mem_edgesFrom.mp he).1).le (ih e.dest hclosed)
            rw [Tally.abort_forecast]
            refine le_min ?_ zero_le_one
            split
            · next hshare =>
                simp only [Bool.and_eq_true, decide_eq_true_eq] at hshare
                exact div_nonneg hsum hshare.2.le
            · exact hsum

/-- An edge that the tally includes carries the abort forecast over. -/
theorem abort_pos {v : VertexId} {e : Edge Rat} (he : e ∈ r.edgesFrom v)
    (hclosed : r.ClosedBefore e.dest v) (hdest : 0 < (r.outlook e.dest).abort) :
    0 < (r.outlook v).abort := by
  obtain ⟨hmem, hsource⟩ := mem_edgesFrom.mp he
  obtain ⟨x, hx, -⟩ := hr.exists_source hmem
  rw [hsource] at hx
  have hrunning := hr.running_of_joined (hr.tallied.arranged.joined_of_mem he) (state?_eq hx)
  have hprobability : ∀ f ∈ r.edgesFrom v, 0 < f.probability :=
    fun f hf => hr.probability_pos (mem_edgesFrom.mp hf).1
  rw [hr.outlook_eq_tally hx, if_neg (by simp [hrunning]), Tally.abort_forecast]
  have hsum : 0 < (r.tallyAt v).sum.abort := by
    rw [abort_tallyAt]
    refine (mul_pos (hprobability e he) hdest).trans_le
      (le_includedSum (fun f hf _ => ?_) he hclosed)
    exact mul_nonneg (hprobability f hf).le (hr.abort_nonneg f.dest)
  have hincluded : 0 < (r.tallyAt v).included := by
    rw [included_tallyAt]
    exact (hprobability e he).trans_le
      (le_includedSum (fun f hf _ => (hprobability f hf).le) he hclosed)
  -- what is left after other edges were left out is shared by the included ones
  refine lt_min ?_ zero_lt_one
  split
  · exact div_pos hsum hincluded
  · exact hsum

/-- Along edges that the propagation keeps, the abort at the end shows in the forecast. -/
theorem abort_pos_of_path {v : VertexId} {path : List VertexId}
    (hjoined : ∀ l ∈ legs (v :: path), r.Joined l.1 l.2)
    (hclosed : ∀ l ∈ legs (v :: path), r.ClosedBefore l.2 l.1)
    (hend : (v :: path).getLast? = some Markers.fixed.abort) : 0 < (r.outlook v).abort := by
  induction path generalizing v with
  | nil =>
      obtain rfl : v = Markers.fixed.abort := Option.some.inj hend
      obtain ⟨x, hx, hstate⟩ := Option.map_eq_some_iff.mp
        (hr.tallied.marked.abort hr.tallied.seeded)
      rw [hr.outlook_eq_tally hx, hstate]
      exact zero_lt_one
  | cons w path ih =>
      rw [List.getLast?_cons_cons] at hend
      have hrest := ih (fun l hl => hjoined l (List.mem_cons_of_mem _ hl))
        (fun l hl => hclosed l (List.mem_cons_of_mem _ hl)) hend
      have hmem := hr.tallied.arranged.mem_dests_iff.mpr (hjoined (v, w) List.mem_cons_self)
      obtain ⟨e, he, rfl⟩ := List.mem_map.mp hmem
      exact hr.abort_pos he (hclosed _ List.mem_cons_self) hrest

/-- A vertex with an aborted transaction and no abort forecast: the transaction has taken an edge
that the propagation has left out. -/
theorem exists_dropped {v : VertexId} {path : List VertexId} (hpath : path ∈ learned es)
    (hv : v ∈ path) (hend : path.getLast? = some Markers.fixed.abort)
    (hforecast : (r.outlook v).abort ≤ 0) :
    ∃ before after, path = before ++ v :: after ∧
      ∃ l ∈ legs (v :: after), ¬r.ClosedBefore l.2 l.1 ∧ r.Reaches l.2 l.1 := by
  obtain ⟨before, after, rfl⟩ := List.append_of_mem hv
  refine ⟨before, after, rfl, ?_⟩
  have hjoined : ∀ l ∈ legs (v :: after), r.Joined l.1 l.2 := fun l hl =>
    (hr.tallied.joined l.1 l.2).mpr ⟨_, hpath, legs_append_subset before (v :: after) hl⟩
  -- if every edge from there on were kept, the abort would show in the forecast
  by_contra hnone
  have hclosed : ∀ l ∈ legs (v :: after), r.ClosedBefore l.2 l.1 := by
    intro l hl
    by_contra hdropped
    rcases hr.tallied.arranged.closedBefore_or_reaches (hjoined l hl) with h | hreaches
    · exact hdropped h
    · exact hnone ⟨l, hl, hdropped, hreaches⟩
  rw [List.getLast?_append_of_ne_nil _ (List.cons_ne_nil v after)] at hend
  exact hforecast.not_gt (hr.abort_pos_of_path hjoined hclosed hend)

end Trained

theorem predictNoAbort_eq_true_iff {α : Type} [Weight α] (g : Graph α) (v : VertexId) :
    g.predictNoAbort v = .ok true ↔ ∃ x, g.vertex? v = some x ∧
      g.settings.minHitsForNoAbort ≤ x.hits.total ∧
      Weight.le x.forecast.abort g.settings.abortThreshold = true := by
  unfold predictNoAbort vertex
  cases hx : g.vertex? v with
  | none => simp [bind, Except.bind]
  | some x =>
      simp only [bind, Except.bind, pure, Except.pure, Except.ok.injEq, Bool.and_eq_true,
        decide_eq_true_eq, Option.some.injEq, exists_eq_left']

theorem predictNoAbort_eq_ok_true_iff (g : Graph Rat) (v : VertexId) :
    g.predictNoAbort v = .ok true ↔ ∃ x, g.vertex? v = some x ∧
      g.settings.minHitsForNoAbort ≤ x.hits.total ∧
      x.forecast.abort ≤ g.settings.abortThreshold := by
  rw [predictNoAbort_eq_true_iff]
  exact exists_congr fun x => and_congr_right fun _ => and_congr_right fun _ => decide_eq_true_iff

/-! ## Predictions after a list of traces -/

/-- Where a vertex is predicted not to abort, every learned transaction that has passed it and has
aborted took an edge after it that the propagation left out: the destination was not closed before
the source and leads back to it. -/
theorem exists_dropped_of_predictNoAbort (p : Procedure)
    (ts : List (TransactionTrace × Estimator))
    (hbound : (learned ((fresh p (.standard : ModelSettings Rat)).ledger (lessons ts))).length <
      UInt64.size)
    (hfit : ((fresh p (.standard : ModelSettings Rat)).performAll (lessons ts)).Fits) :
    let g := (fresh p (.standard : ModelSettings Rat)).performAll (lessons ts ++ [Change.recompute])
    ∀ v, g.predictNoAbort v = .ok true →
      ∀ path ∈ learned ((fresh p (.standard : ModelSettings Rat)).ledger (lessons ts)),
        v ∈ path → path.getLast? = some Markers.fixed.abort →
        ∃ before after, path = before ++ v :: after ∧
          ∃ l ∈ legs (v :: after), ¬g.ClosedBefore l.2 l.1 ∧ g.Reaches l.2 l.1 := by
  intro g v hpredict path hpath hv hend
  have hr : g.Trained _ := trained_lessons p (.standard : ModelSettings Rat) ts hbound hfit
  have hsettings : g.settings = (.standard : ModelSettings Rat) :=
    settings_performAll p (.standard : ModelSettings Rat) _
  obtain ⟨x, hx, -, habort⟩ := (predictNoAbort_eq_ok_true_iff g v).mp hpredict
  rw [hsettings, ← outlook_eq hx] at habort
  refine hr.exists_dropped ?_ hv hend habort
  rw [learned_ledger_recompute]
  exact hpath

/-- Four transactions that commit, and one that runs the last two statements the other way round
and aborts. -/
def reordered : List (TransactionTrace × Estimator) :=
  [(transferTrace 1 false [12, 10, 11], .recorded), (transferTrace 2 false [12, 10, 11], .recorded),
    (transferTrace 3 false [12, 10, 11], .recorded),
    (transferTrace 4 false [12, 10, 11], .recorded),
    (transferTrace 5 true [12, 11, 10], .recorded)]

/-- The graph of `reordered`: its two query vertices after the first one are on a cycle. -/
def reorderedGraph : Graph Rat :=
  (fresh transfer .standard).performAll (lessons reordered ++ [Change.recompute])

theorem predictNoAbort_reordered : reorderedGraph.predictNoAbort ⟨5⟩ = .ok true :=
  eq_ok_of_toOption (by decide +kernel)

/-- The aborted transaction has passed a vertex that is predicted not to abort. -/
theorem predictNoAbort_despite_abort :
    (learned ((fresh transfer (.standard : ModelSettings Rat)).ledger (lessons reordered))).length =
        reordered.length ∧
      reorderedGraph.predictNoAbort ⟨5⟩ = .ok true ∧
      ∃ path ∈
          learned ((fresh transfer (.standard : ModelSettings Rat)).ledger (lessons reordered)),
        ⟨5⟩ ∈ path ∧ path.getLast? = some Markers.fixed.abort := by
  have hpaths : [⟨0⟩, ⟨3⟩, ⟨5⟩, ⟨4⟩, ⟨2⟩] ∈
      learned ((fresh transfer (.standard : ModelSettings Rat)).ledger (lessons reordered)) := by
    decide +kernel
  exact ⟨by decide +kernel, predictNoAbort_reordered, _, hpaths, by decide, rfl⟩

theorem exists_dropped_reordered :
    (learned ((fresh transfer (.standard : ModelSettings Rat)).ledger (lessons reordered))).length =
        5 ∧
      reorderedGraph.predictNoAbort ⟨5⟩ = .ok true ∧
      ∃ before after, [⟨0⟩, ⟨3⟩, ⟨5⟩, ⟨4⟩, ⟨2⟩] = before ++ ⟨5⟩ :: after ∧
        ∃ l ∈ legs (⟨5⟩ :: after),
          ¬reorderedGraph.ClosedBefore l.2 l.1 ∧ reorderedGraph.Reaches l.2 l.1 := by
  have hlength : (learned ((fresh transfer (.standard : ModelSettings Rat)).ledger
      (lessons reordered))).length = 5 := by decide +kernel
  have hfit :
      ((fresh transfer (.standard : ModelSettings Rat)).performAll (lessons reordered)).Fits :=
    ⟨by decide +kernel, by decide +kernel⟩
  have hpath : [⟨0⟩, ⟨3⟩, ⟨5⟩, ⟨4⟩, ⟨2⟩] ∈
      learned ((fresh transfer (.standard : ModelSettings Rat)).ledger (lessons reordered)) := by
    decide +kernel
  exact ⟨hlength, predictNoAbort_reordered, exists_dropped_of_predictNoAbort transfer reordered
    (by rw [hlength]; decide) hfit ⟨5⟩ predictNoAbort_reordered _ hpath (by decide) rfl⟩

end Graph

end PathForecast
