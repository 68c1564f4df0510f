import PathForecast.Proofs.Bookkeeping

/-!
# One model per procedure

A build sorts the traces of a workload by procedure before it learns any of them, so the model of a
procedure is made of its own traces, in their order, and of nothing else. Main statement:
`exists_buildModels`; in particular a model does not depend on the other procedures of the catalog,
on their order, or on the traces in between.
-/

set_option autoImplicit false

namespace PathForecast

variable {α : Type} [Weight α]

def Graph.learnAll (g : Graph α) : List TransactionTrace → Except Fault (Graph α)
  | [] => .ok g
  | t :: traces => do
      let (g, _) ← g.learn t .recorded
      g.learnAll traces

theorem Graph.learnAll_cons_of_ok {g k : Graph α} {t : TransactionTrace} {path : List VertexId}
    (h : g.learn t .recorded = .ok (k, path)) (traces : List TransactionTrace) :
    g.learnAll (t :: traces) = k.learnAll traces := by
  rw [learnAll, h]
  rfl

/-! ## The batch of a procedure -/

namespace ProcedureModel

/-- Offering traces learns the accepted ones and skips the others. -/
theorem learnAll_accepted {p : Procedure} (batch : List TransactionTrace) :
    ∀ m : ProcedureModel α, m.graph.Marked → m.graph.seeded = true → m.graph.procedure = p →
      m.graph.learnAll (batch.filter (·.accepted p)) = .ok (batch.foldl offer m).graph := by
  induction batch with
  | nil => exact fun _ _ _ _ => rfl
  | cons t batch ih =>
      intro m hmarked hseeded hp
      have hgrow := hmarked.perform_growth (.learn t .recorded)
      rw [← graph_offer] at hgrow
      have hrest := ih (m.offer t) (hgrow.marked hmarked) (hgrow.seeded_of_seeded hseeded)
        (hgrow.procedure_eq.trans hp)
      rw [List.foldl_cons, ← hrest]
      cases hresolve : t.resolve m.graph.procedure .recorded with
      | ok visits =>
          have hlearn : m.graph.learn t .recorded =
              .ok ((m.graph.walk t visits).1, (m.graph.walk t visits).2) :=
            (Graph.learn_eq_ok_iff _ t .recorded _).mpr ⟨hseeded, visits, hresolve, rfl⟩
          rw [List.filter_cons_of_pos (hp ▸ TransactionTrace.accepted_of_ok hresolve),
            Graph.learnAll_cons_of_ok hlearn, offer_of_ok hseeded hresolve]
      | error fault =>
          have hrefused : ¬t.accepted p = true := by
            rw [← hp, TransactionTrace.accepted_of_error hresolve]
            exact Bool.false_ne_true
          rw [List.filter_cons_of_neg hrefused, offer_of_error hresolve]

/-- The model that a batch of traces makes of a fresh graph: the accepted ones are learned in order,
the others are counted, and the graph is recomputed once. -/
structure Distills (p : Procedure) (s : ModelSettings α) (batch : List TransactionTrace)
    (m : ProcedureModel α) : Prop where
  graph : ∃ g, (Graph.fresh p s).learnAll (batch.filter (·.accepted p)) = .ok g ∧
    g.recompute = .ok m.graph
  learned : m.learned = batch.countP (·.accepted p)
  rejected : m.rejected = batch.countP fun t => !t.accepted p

theorem distills_of_replay {p : Procedure} {s : ModelSettings α} {batch : List TransactionTrace}
    {m : ProcedureModel α} (h : replay p s batch = .ok m) : Distills p s batch m := by
  obtain ⟨m', hm', hreplays⟩ := exists_replay p s batch
  obtain rfl : m = m' := Except.ok.inj (h.symm.trans hm')
  refine ⟨⟨(batch.foldl offer (fresh p s)).graph, ?_, ?_⟩, hreplays.counts.1,
    hreplays.counts.2⟩
  · exact learnAll_accepted batch (fresh p s)
      (Graph.marked_of_reachable (Graph.Reachable.empty.step .seed)) rfl rfl
  · dsimp only [replay] at h
    cases hg : (batch.foldl offer (fresh p s)).graph.recompute with
    | error fault =>
        rw [hg] at h
        cases h
    | ok g =>
        rw [hg] at h
        cases h
        rfl

theorem procedure_of_replay {p : Procedure} {s : ModelSettings α} {batch : List TransactionTrace}
    {m : ProcedureModel α} (h : replay p s batch = .ok m) : m.graph.procedure = p := by
  have hgrow : Graph.Growth (fresh p s).graph (batch.foldl offer (fresh p s)).graph := by
    rw [graph_foldl_offer]
    exact Graph.growth_performAll _
      (Graph.marked_of_reachable (Graph.Reachable.empty.step .seed))
  dsimp only [replay] at h
  cases hg : (batch.foldl offer (fresh p s)).graph.recompute with
  | error fault =>
      rw [hg] at h
      cases h
  | ok g =>
      rw [hg] at h
      cases h
      have hlayout := Graph.layout_of_recompute hg
      exact (congrArg Graph.Layout.procedure hlayout).trans hgrow.procedure_eq

end ProcedureModel

/-! ## Builds -/

theorem buildFrom_cons_eq_ok {s : ModelSettings α} {models : Table ProcedureId (ProcedureModel α)}
    {traces : List TransactionTrace} {p : Procedure} {ps : List Procedure} {o : BuildOutcome α}
    (h : buildFrom s models traces (p :: ps) = .ok o) :
    ∃ m, ProcedureModel.replay p s (traces.filter fun t => decide (t.procedure = p.id)) = .ok m ∧
      buildFrom s (models.insert p.id m) (traces.filter fun t => decide (t.procedure ≠ p.id)) ps =
        .ok o := by
  obtain ⟨m, hm, -⟩ := ProcedureModel.exists_replay p s
    (traces.filter fun t => decide (t.procedure = p.id))
  rw [buildFrom, hm] at h
  exact ⟨m, hm, h⟩

/-- A build has the models that were there and one for each procedure that is listed. -/
theorem mem_keys_of_buildFrom {s : ModelSettings α} (k : ProcedureId) (ps : List Procedure) :
    ∀ {models : Table ProcedureId (ProcedureModel α)} {traces : List TransactionTrace}
      {o : BuildOutcome α}, buildFrom s models traces ps = .ok o →
      (k ∈ o.models.keys ↔ k ∈ models.keys ∨ k ∈ ps.map (·.id)) := by
  induction ps with
  | nil =>
      intro models traces o h
      cases h
      simp
  | cons p ps ih =>
      intro models traces o h
      obtain ⟨m, -, hrest⟩ := buildFrom_cons_eq_ok h
      rw [ih hrest, Table.mem_keys_insert, List.map_cons, List.mem_cons]
      tauto

/-- Every model of a build stands under the id of its procedure. -/
theorem id_of_mem_buildFrom {s : ModelSettings α} (ps : List Procedure) :
    ∀ {models : Table ProcedureId (ProcedureModel α)} {traces : List TransactionTrace}
      {o : BuildOutcome α}, buildFrom s models traces ps = .ok o →
      (∀ e ∈ models.entries, e.2.graph.procedure.id = e.1) →
      ∀ e ∈ o.models.entries, e.2.graph.procedure.id = e.1 := by
  induction ps with
  | nil =>
      intro models traces o h hmodels
      cases h
      exact hmodels
  | cons p ps ih =>
      intro models traces o h hmodels
      obtain ⟨m, hm, hrest⟩ := buildFrom_cons_eq_ok h
      refine ih hrest fun e he => ?_
      rcases Table.mem_insertEntry he with rfl | he
      · exact congrArg Procedure.id (ProcedureModel.procedure_of_replay hm)
      · exact hmodels e he

theorem nodup_ids_of_buildModels {c : Catalog} {traces : List TransactionTrace}
    {s : ModelSettings α} {o : BuildOutcome α} (h : buildModels c traces s = .ok o) :
    (o.models.values.map (·.graph.procedure.id)).Nodup := by
  have hids : o.models.values.map (·.graph.procedure.id) = o.models.keys := by
    rw [Table.values, Table.keys, List.map_map]
    exact List.map_congr_left (id_of_mem_buildFrom c.procedures h nofun)
  rw [hids]
  exact o.models.ascending.nodup

/-- A procedure that is not listed any more keeps the model that it has. -/
theorem get?_of_buildFrom_of_not_mem {s : ModelSettings α} {k : ProcedureId}
    (ps : List Procedure) :
    ∀ {models : Table ProcedureId (ProcedureModel α)} {traces : List TransactionTrace}
      {o : BuildOutcome α}, buildFrom s models traces ps = .ok o → k ∉ ps.map (·.id) →
      o.models.get? k = models.get? k := by
  induction ps with
  | nil =>
      intro models traces o h _
      cases h
      rfl
  | cons p ps ih =>
      intro models traces o h hk
      obtain ⟨hne, hk⟩ := not_or.mp (List.mem_cons.not.mp hk)
      obtain ⟨m, -, hrest⟩ := buildFrom_cons_eq_ok h
      rw [ih hrest hk, Table.get?_insert, if_neg hne]

/-- The traces of other procedures are sorted out before a procedure has its turn. -/
theorem filter_filter_of_ne (traces : List TransactionTrace) {k l : ProcedureId} (h : l ≠ k) :
    (traces.filter fun t => decide (t.procedure ≠ k)).filter
        (fun t => decide (t.procedure = l)) =
      traces.filter fun t => decide (t.procedure = l) := by
  rw [List.filter_filter]
  refine List.filter_congr fun t _ => ?_
  by_cases ht : t.procedure = l
  · simp [ht, h]
  · simp [ht]

theorem get?_of_buildFrom {s : ModelSettings α} {p : Procedure} (ps : List Procedure) :
    ∀ {models : Table ProcedureId (ProcedureModel α)} {traces : List TransactionTrace}
      {o : BuildOutcome α}, buildFrom s models traces ps = .ok o → (ps.map (·.id)).Nodup → p ∈ ps →
      ∃ m, ProcedureModel.replay p s (traces.filter fun t => decide (t.procedure = p.id)) = .ok m ∧
        o.models.get? p.id = some m := by
  induction ps with
  | nil => exact fun _ _ => nofun
  | cons q ps ih =>
      intro models traces o h hnodup hp
      obtain ⟨hq, hnodup⟩ := List.nodup_cons.mp hnodup
      obtain ⟨m, hm, hrest⟩ := buildFrom_cons_eq_ok h
      rcases List.mem_cons.mp hp with rfl | hp
      · refine ⟨m, hm, ?_⟩
        rw [get?_of_buildFrom_of_not_mem ps hrest hq, Table.get?_insert, if_pos rfl]
      · have hne : p.id ≠ q.id := fun heq => hq (List.mem_map.mpr ⟨p, hp, heq⟩)
        rw [← filter_filter_of_ne traces hne]
        exact ih hrest hnodup hp

/-- A build of a catalog whose procedures have ids of their own has one model for each of them: the
one that the traces of the procedure make of a fresh graph. Any other build in which the procedure
has the same traces in the same order has the same model of it. -/
theorem exists_buildModels (c : Catalog) (traces : List TransactionTrace) (s : ModelSettings α)
    (hnodup : (c.procedures.map (·.id)).Nodup) :
    ∃ o, buildModels c traces s = .ok o ∧ o.models.keys.Perm (c.procedures.map (·.id)) ∧
      ∀ p ∈ c.procedures, ∃ m, o.models.get? p.id = some m ∧
        m.Distills p s (traces.filter fun t => decide (t.procedure = p.id)) ∧
        ∀ (c' : Catalog) (traces' : List TransactionTrace), (c'.procedures.map (·.id)).Nodup →
          p ∈ c'.procedures →
          (traces'.filter fun t => decide (t.procedure = p.id)) =
            traces.filter (fun t => decide (t.procedure = p.id)) →
          ∃ o', buildModels c' traces' s = .ok o' ∧ o'.models.get? p.id = some m := by
  obtain ⟨o, ho, -⟩ := exists_buildFrom s c.procedures ∅ traces
  refine ⟨o, ho, ?_, fun p hp => ?_⟩
  · have hkeys : o.models.keys.Nodup :=
      o.models.ascending.imp fun hlt heq => Nat.ne_of_lt hlt (congrArg rank heq)
    refine (List.perm_ext_iff_of_nodup hkeys hnodup).mpr fun k => ?_
    rw [mem_keys_of_buildFrom k c.procedures ho]
    exact or_iff_right List.not_mem_nil
  · obtain ⟨m, hm, hget⟩ := get?_of_buildFrom c.procedures ho hnodup hp
    refine ⟨m, hget, ProcedureModel.distills_of_replay hm, fun c' traces' hnodup' hp' hsame => ?_⟩
    obtain ⟨o', ho', -⟩ := exists_buildFrom s c'.procedures ∅ traces'
    obtain ⟨m', hm', hget'⟩ := get?_of_buildFrom c'.procedures ho' hnodup' hp'
    rw [hsame, hm] at hm'
    exact ⟨o', ho', hget'.trans (congrArg some (Except.ok.inj hm').symm)⟩

def review : Procedure := ⟨⟨2⟩, "review", [⟨⟨20⟩, "scan"⟩]⟩

/-- Traces of two procedures by turns. One of `transfer` runs a statement that is not declared, and
the last trace is of a procedure that does not exist. -/
def mixedWorkload : List TransactionTrace :=
  [Graph.transferTrace 1 false [10, 11], ⟨⟨2⟩, ⟨2⟩, 0, 5, false, some ⟨1⟩, [⟨⟨20⟩, 1, 2, none⟩]⟩,
    Graph.transferTrace 3 true [13], Graph.transferTrace 4 true [10],
    ⟨⟨5⟩, ⟨9⟩, 0, 5, false, some ⟨1⟩, []⟩]

/-- The model of `transfer` takes two of its three traces, and it is the same if `transfer` comes
last or if there is nothing else. -/
theorem exists_buildModels_transfer :
    ∃ o m, buildModels ⟨[Graph.transfer, review]⟩ mixedWorkload (.standard : ModelSettings Rat) =
        .ok o ∧ o.models.get? ⟨1⟩ = some m ∧ m.learned = 2 ∧ m.rejected = 1 ∧
      (∃ o', buildModels ⟨[review, Graph.transfer]⟩ mixedWorkload .standard = .ok o' ∧
        o'.models.get? ⟨1⟩ = some m) ∧
      ∃ o', buildModels ⟨[Graph.transfer]⟩ [Graph.transferTrace 1 false [10, 11],
          Graph.transferTrace 3 true [13], Graph.transferTrace 4 true [10]] .standard = .ok o' ∧
        o'.models.get? ⟨1⟩ = some m := by
  obtain ⟨o, ho, -, hmodels⟩ := exists_buildModels ⟨[Graph.transfer, review]⟩ mixedWorkload
    (.standard : ModelSettings Rat) (by decide)
  obtain ⟨m, hm, hdistills, hsame⟩ := hmodels Graph.transfer List.mem_cons_self
  refine ⟨o, m, ho, hm, hdistills.learned.trans (by decide +kernel),
    hdistills.rejected.trans (by decide +kernel), ?_, ?_⟩
  · exact hsame _ _ (by decide) (List.mem_cons_of_mem _ List.mem_cons_self) rfl
  · exact hsame _ _ (by decide) List.mem_cons_self (by decide +kernel)

end PathForecast
