import PathForecast.Proofs.NoAbort

/-!
# Gaining confidence

A vertex is predicted not to abort once it has enough hits and the forecast that the last recompute
has stored is low enough. Learning adds hits and leaves the forecasts alone (`outlook_learn`), so a
transaction can raise a prediction, even if it aborts itself: with its hit a vertex may come to the
hits that it needs, while the abort waits for the next recompute. Main statement:
`predictNoAbort_learn`, this is the only way; `predictNoAbort_raised_by_abort` is a transaction that
does so.
-/

set_option autoImplicit false

namespace PathForecast

theorem HitCount.toNat_total_record {h : HitCount} (hlt : h.total.toNat < UInt64.size - 1) :
    h.record.total.toNat = h.total.toNat + 1 := by
  rw [toNat_total] at hlt
  have hwindow : (h.window + 1).toNat = h.window.toNat + 1 := by
    refine toNat_add_of_lt ?_
    have hone : (1 : UInt64).toNat = 1 := rfl
    omega
  rw [toNat_total, toNat_total]
  show min (h.folded.toNat + (h.window + 1).toNat) (UInt64.size - 1) = _
  omega

/-- One hit takes a count over the bound of five only from four. -/
theorem HitCount.total_record_eq_five {h : HitCount} (hfew : h.total < 5)
    (henough : 5 ≤ h.record.total) : h.total = 4 ∧ h.record.total = 5 := by
  have hfive : (5 : UInt64).toNat = 5 := rfl
  have hfour : (4 : UInt64).toNat = 4 := rfl
  have hsize : UInt64.size = 18446744073709551616 := rfl
  rw [UInt64.lt_iff_toNat_lt, hfive] at hfew
  rw [UInt64.le_iff_toNat_le, hfive] at henough
  have hrecord := toNat_total_record (h := h) (by omega)
  rw [← UInt64.toNat_inj, ← UInt64.toNat_inj, hfour, hfive]
  omega

namespace Graph

variable {α : Type} [Weight α]

/-! ## Learning leaves the forecasts alone -/

theorem outlook_updateVertex (g : Graph α) (v w : VertexId) {f : Vertex α → Vertex α}
    (hf : ∀ x, (f x).forecast = x.forecast) : (g.updateVertex v f).outlook w = g.outlook w := by
  unfold outlook
  rw [vertex?_updateVertex]
  split
  · rw [Option.map_map]
    exact congrArg (fun o => Option.getD o Forecast.zero)
      (congrArg (Option.map · (g.vertex? w)) (funext hf))
  · rfl

/-- A new vertex has no forecast yet. -/
theorem outlook_pushVertex (g : Graph α) (state : VertexState) (v : VertexId) :
    (g.pushVertex state).outlook v = g.outlook v := by
  unfold outlook vertex?
  rw [getElem?_pushVertex]
  split
  · next h =>
      rw [h, Array.getElem?_size]
      rfl
  · rfl

theorem outlook_pushEdge (g : Graph α) (source dest v : VertexId) :
    (g.pushEdge source dest).outlook v = g.outlook v :=
  g.outlook_updateVertex source v fun _ => rfl

theorem outlook_traverseEdge (g : Graph α) (sample : SampleKey) (source dest : VertexId)
    (remaining : UInt64) (v : VertexId) :
    (g.traverseEdge sample source dest remaining).outlook v = g.outlook v := by
  calc (g.traverseEdge sample source dest remaining).outlook v
      = (g.ensureEdge source dest).1.outlook v := outlook_updateVertex _ dest v fun _ => rfl
    _ = g.outlook v := ensureEdge_keeps (·.outlook v) fun _ => g.outlook_pushEdge source dest v

theorem outlook_follow (g : Graph α) (sample : SampleKey) (previous : VertexId) (visit : Visit)
    (v : VertexId) : (g.follow sample previous visit).1.outlook v = g.outlook v := by
  have hmove : (g.follow sample previous visit).1.outlook v =
      (g.ensureVertex visit.key).1.outlook v :=
    (g.ensureVertex visit.key).1.outlook_traverseEdge sample previous (g.ensureVertex visit.key).2
      visit.remaining v
  rw [hmove]
  exact ensureVertex_keeps (·.outlook v) (g.outlook_pushVertex (.query visit.key) v)

theorem outlook_enter (g : Graph α) (sample : SampleKey) (elapsed : UInt64) (v : VertexId) :
    (g.enter sample elapsed).outlook v = g.outlook v :=
  g.outlook_updateVertex Markers.fixed.start v fun _ => rfl

theorem outlook_learn {g k : Graph α} {t : TransactionTrace} {estimator : Estimator}
    {path : List VertexId} (h : g.learn t estimator = .ok (k, path)) (v : VertexId) :
    k.outlook v = g.outlook v := by
  obtain ⟨-, visits, -, hwalk⟩ := (learn_eq_ok_iff g t estimator (k, path)).mp h
  rw [(Prod.mk.inj hwalk).1]
  refine walk_induction (motive := fun l => l.outlook v = g.outlook v) ?enter ?follow ?leave ?count
    rfl
  case enter => exact fun hl => (outlook_enter _ _ _ v).trans hl
  case follow => exact fun previous visit _ hl => (outlook_follow _ _ previous visit v).trans hl
  case leave => exact fun previous hl => (outlook_traverseEdge _ _ previous _ _ v).trans hl
  case count => exact id

/-! ## The hit that tips the prediction -/

/-- A trace that is learned can raise the prediction of a vertex on its path only by bringing it to
its fifth hit, at a forecast that is low enough already and stays as it is. Whether the trace aborts
makes no difference. -/
theorem predictNoAbort_learn {p : Procedure} {g k : Graph α} {t : TransactionTrace}
    {estimator : Estimator} {path : List VertexId} (h : Reachable p .standard g)
    (hlearn : g.learn t estimator = .ok (k, path)) (hfit : k.Fits) {v : VertexId} (hv : v ∈ path)
    (hpredict : k.predictNoAbort v = .ok true) :
    g.predictNoAbort v = .ok true ∨
      ∃ x y, g.vertex? v = some x ∧ k.vertex? v = some y ∧ x.hits.total = 4 ∧ y.hits.total = 5 ∧
        y.forecast = x.forecast ∧ Weight.le x.forecast.abort 0 = true := by
  have hmarked := marked_of_reachable h
  have hgrow : Growth g k := growth_learn hmarked hlearn
  have hsettings : g.settings = .standard := (growth_of_reachable h).settings_eq
  have hwalked := walked_of_learn (arranged_of_reachable h (hgrow.fits hfit)) hmarked hlearn hfit
  obtain ⟨y, hy, hhits, habort⟩ := (predictNoAbort_eq_true_iff k v).mp hpredict
  rw [hgrow.settings_eq, hsettings] at hhits habort
  replace hhits : 5 ≤ y.hits.total := hhits
  -- the path passes the vertex once, and its forecast is the one that was stored before
  have hrecord : y.hits = (g.vertexHits v).record := by
    rw [hits_eq_vertexHits hy, hwalked.vertexHits, if_pos hv]
  have hforecast : y.forecast = g.outlook v := by rw [← outlook_eq hy, outlook_learn hlearn]
  cases hx : g.vertex? v with
  | none =>
      -- a vertex that the trace has created has one hit
      have hone : y.hits.total = 1 := by
        rw [hrecord, vertexHits, hx]
        rfl
      rw [hone] at hhits
      exact absurd hhits (by decide)
  | some x =>
      rw [← hits_eq_vertexHits hx] at hrecord
      rw [outlook_eq hx] at hforecast
      rw [hforecast] at habort
      by_cases henough : 5 ≤ x.hits.total
      · left
        refine (predictNoAbort_eq_true_iff g v).mpr ⟨x, hx, ?_, ?_⟩
        · rw [hsettings]
          exact henough
        · rw [hsettings]
          exact habort
      · right
        rw [hrecord] at hhits
        obtain ⟨hfour, hfive⟩ := HitCount.total_record_eq_five (UInt64.not_le.mp henough) hhits
        rw [← hrecord] at hfive
        exact ⟨x, y, rfl, hy, hfour, hfive, hforecast, habort⟩

def steady : List Change :=
  [.learn (transferTrace 1 false [10]) .recorded, .learn (transferTrace 2 false [10]) .recorded,
    .learn (transferTrace 3 false [10]) .recorded, .learn (transferTrace 4 false [10]) .recorded,
    .recompute]

/-- The graph of `steady`: its query vertex has four hits and an abort forecast of zero. -/
def steadyGraph : Graph Rat := (fresh transfer .standard).performAll steady

def steadyAborted : Graph Rat :=
  steadyGraph.perform (.learn (transferTrace 5 true [10]) .recorded)

theorem learn_steadyGraph :
    steadyGraph.learn (transferTrace 5 true [10]) .recorded =
      .ok (steadyAborted, [⟨0⟩, ⟨3⟩, ⟨2⟩]) :=
  learn_eq_ok_perform (by decide +kernel)

/-- With its abort the vertex that it has passed is predicted not to abort. -/
theorem predictNoAbort_raised_by_abort :
    (∀ c ∈ steady, c.Trains) ∧
      steadyGraph.learn (transferTrace 5 true [10]) .recorded =
        .ok (steadyAborted, [⟨0⟩, ⟨3⟩, ⟨2⟩]) ∧
      steadyGraph.predictNoAbort ⟨3⟩ = .ok false ∧
      steadyAborted.predictNoAbort ⟨3⟩ = .ok true := by
  refine ⟨?_, learn_steadyGraph, eq_ok_of_toOption (by decide +kernel),
    eq_ok_of_toOption (by decide +kernel)⟩
  simp only [steady, List.forall_mem_cons]
  exact ⟨.learn _ _, .learn _ _, .learn _ _, .learn _ _, .recompute, nofun⟩

theorem predictNoAbort_learn_steady :
    ∃ x y, steadyGraph.vertex? ⟨3⟩ = some x ∧ steadyAborted.vertex? ⟨3⟩ = some y ∧
      x.hits.total = 4 ∧ y.hits.total = 5 ∧ y.forecast = x.forecast ∧
      Weight.le x.forecast.abort 0 = true := by
  have hreach : Reachable transfer .standard steadyGraph :=
    (Reachable.empty.step .seed).performAll steady
  have hfit : steadyAborted.Fits := ⟨by decide +kernel, by decide +kernel⟩
  have hraised : steadyAborted.predictNoAbort ⟨3⟩ = .ok true :=
    eq_ok_of_toOption (by decide +kernel)
  have hbefore : steadyGraph.predictNoAbort ⟨3⟩ = .ok false :=
    eq_ok_of_toOption (by decide +kernel)
  refine (predictNoAbort_learn hreach learn_steadyGraph hfit (by decide) hraised).resolve_left ?_
  rw [hbefore]
  nofun

end Graph

end PathForecast
