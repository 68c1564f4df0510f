import PathForecast.Proofs.Interleaving
import PathForecast.Workload

/-!
# Bookkeeping of a build

A build replays each procedure's traces into a graph of its own and counts what the graph takes and
refuses. Several threads may share the work: each offers its part of the traces in order, and the
threads take their steps in any order (`Crew`). What is taken is settled before the graph is
touched, so the counts are those of the traces, whatever the threads do (`Crew.Balanced`). Main
statements: `exists_buildFrom`, the build one after the other is one of these builds, and
`learned_add_rejected_add_orphaned`, a trace is counted once if the catalog lists its procedure once
or never. If it lists the procedure again, the later model takes the place of the earlier one, and
the counts of the earlier one are lost.
-/

set_option autoImplicit false

namespace PathForecast

def TransactionTrace.accepted (p : Procedure) (t : TransactionTrace) : Bool :=
  (t.resolve p .recorded).toOption.isSome

theorem TransactionTrace.accepted_of_ok {p : Procedure} {t : TransactionTrace}
    {visits : List Visit} (h : t.resolve p .recorded = .ok visits) : t.accepted p = true := by
  rw [accepted, h]
  rfl

theorem TransactionTrace.accepted_of_error {p : Procedure} {t : TransactionTrace} {fault : Fault}
    (h : t.resolve p .recorded = .error fault) : t.accepted p = false := by
  rw [accepted, h]
  rfl

theorem sum_map_set {β : Type} (f : β → Nat) {l : List β} {i : Nat} {x : β}
    (h : l[i]? = some x) (y : β) : ((l.set i y).map f).sum + f x = (l.map f).sum + f y := by
  induction l generalizing i with
  | nil => cases h
  | cons a l ih =>
      cases i with
      | zero =>
          obtain rfl : a = x := Option.some.inj h
          simp only [List.set_cons_zero, List.map_cons, List.sum_cons]
          omega
      | succ i =>
          have hrest := ih (i := i) h
          simp only [List.set_cons_succ, List.map_cons, List.sum_cons]
          omega

/-! ## Threads -/

/-- One thread of a replay: the transaction under way, and the traces that it has yet to offer. -/
structure Worker where
  current : Option Learner
  queue : List TransactionTrace

namespace Worker

def toLearn (p : Procedure) (w : Worker) : Nat :=
  w.current.toList.length + w.queue.countP (·.accepted p)

def toReject (p : Procedure) (w : Worker) : Nat := w.queue.countP fun t => !t.accepted p

end Worker

/-- The threads that replay into one graph, with their common counters. -/
structure Crew (α : Type) where
  graph : Graph α
  workers : List Worker
  learned : Nat
  rejected : Nat

variable {α : Type} [Weight α]

theorem Graph.procedure_traverseEdge (g : Graph α) (sample : SampleKey) (source dest : VertexId)
    (remaining : UInt64) : (g.traverseEdge sample source dest remaining).procedure = g.procedure :=
  ensureEdge_keeps (·.procedure) fun _ => rfl

theorem Graph.procedure_advance (g : Graph α) (s : Learner) :
    (g.advance s).1.procedure = g.procedure := by
  unfold advance
  split
  · rfl
  · rfl
  · next visit rest _ =>
      refine (procedure_traverseEdge _ _ _ _ _).trans ?_
      exact ensureVertex_keeps (·.procedure) rfl
  · exact procedure_traverseEdge _ _ _ _ _
  · rfl

namespace Crew

/-- The crew before its first step: each worker has its part of the traces. -/
def fresh (p : Procedure) (s : ModelSettings α) (queues : List (List TransactionTrace)) : Crew α :=
  ⟨.fresh p s, queues.map fun queue => ⟨none, queue⟩, 0, 0⟩

/-- One worker takes its next step: it lets its transaction advance, counts it once it is done, or
offers the next trace. -/
def turn (c : Crew α) (i : Nat) : Crew α :=
  match c.workers[i]? with
  | none => c
  | some ⟨some s, queue⟩ =>
      if s.pending.isEmpty then
        { c with workers := c.workers.set i ⟨none, queue⟩, learned := c.learned + 1 }
      else
        { c with
          graph := (c.graph.advance s).1
          workers := c.workers.set i ⟨some (c.graph.advance s).2, queue⟩ }
  | some ⟨none, []⟩ => c
  | some ⟨none, t :: queue⟩ =>
      match t.resolve c.graph.procedure .recorded with
      | .ok visits => { c with workers := c.workers.set i ⟨some (.fresh t visits), queue⟩ }
      | .error _ => { c with workers := c.workers.set i ⟨none, queue⟩, rejected := c.rejected + 1 }

def run (c : Crew α) (schedule : List Nat) : Crew α := schedule.foldl turn c

def Finished (c : Crew α) : Prop := ∀ w ∈ c.workers, w.current = none ∧ w.queue = []

theorem run_cons (c : Crew α) (i : Nat) (schedule : List Nat) :
    c.run (i :: schedule) = (c.turn i).run schedule := rfl

theorem run_append (c : Crew α) (schedule schedule' : List Nat) :
    c.run (schedule ++ schedule') = (c.run schedule).run schedule' := List.foldl_append

/-! ## The counters of a crew -/

/-- What is counted and what is still to be counted add up to the accepted and refused traces. -/
structure Balanced (p : Procedure) (traces : List TransactionTrace) (c : Crew α) : Prop where
  procedure : c.graph.procedure = p
  learned : c.learned + (c.workers.map (·.toLearn p)).sum = traces.countP (·.accepted p)
  rejected : c.rejected + (c.workers.map (·.toReject p)).sum =
    traces.countP fun t => !t.accepted p

theorem balanced_fresh (p : Procedure) (s : ModelSettings α)
    (queues : List (List TransactionTrace)) :
    (Crew.fresh p s queues).Balanced p queues.flatten where
  procedure := rfl
  learned := by
    rw [List.countP_flatten, fresh, Nat.zero_add, List.map_map]
    refine congrArg List.sum (List.map_congr_left fun queue _ => ?_)
    exact Nat.zero_add _
  rejected := by
    rw [List.countP_flatten, fresh, Nat.zero_add, List.map_map]
    rfl

omit [Weight α] in
/-- One worker has gone on, and what it has yet to count has shrunk by what it has counted. -/
theorem Balanced.of_set {p : Procedure} {traces : List TransactionTrace} {c : Crew α}
    (h : c.Balanced p traces) {i : Nat} {w : Worker} (hw : c.workers[i]? = some w) {g : Graph α}
    {w' : Worker} {learned rejected : Nat} (hg : g.procedure = c.graph.procedure)
    (hlearned : learned + w'.toLearn p = c.learned + w.toLearn p)
    (hrejected : rejected + w'.toReject p = c.rejected + w.toReject p) :
    (⟨g, c.workers.set i w', learned, rejected⟩ : Crew α).Balanced p traces where
  procedure := hg.trans h.procedure
  learned := by
    have hsum := sum_map_set (·.toLearn p) hw w'
    have hbefore := h.learned
    dsimp only at hsum ⊢
    omega
  rejected := by
    have hsum := sum_map_set (·.toReject p) hw w'
    have hbefore := h.rejected
    dsimp only at hsum ⊢
    omega

theorem Balanced.turn {p : Procedure} {traces : List TransactionTrace} {c : Crew α}
    (h : c.Balanced p traces) (i : Nat) : (c.turn i).Balanced p traces := by
  -- a count moves from the worker to a counter, or nothing is counted
  unfold Crew.turn
  split
  · exact h
  · next s queue hw =>
      split
      · refine h.of_set hw rfl ?_ rfl
        simp only [Worker.toLearn, Option.toList_none, Option.toList_some, List.length_nil,
          List.length_singleton]
        omega
      · exact h.of_set hw (c.graph.procedure_advance s) rfl rfl
  · exact h
  · next t queue hw =>
      split
      · next visits hvisits =>
          rw [h.procedure] at hvisits
          have haccepted := TransactionTrace.accepted_of_ok hvisits
          refine h.of_set hw rfl ?_ ?_
          · simp [Worker.toLearn, haccepted, Nat.add_comm]
          · simp [Worker.toReject, haccepted]
      · next fault hfault =>
          rw [h.procedure] at hfault
          have hrefused := TransactionTrace.accepted_of_error hfault
          refine h.of_set hw rfl ?_ ?_
          · simp [Worker.toLearn, hrefused]
          · simp only [Worker.toReject, List.countP_cons, hrefused]
            simp only [Bool.not_false, if_true]
            omega

theorem Balanced.run {p : Procedure} {traces : List TransactionTrace} (schedule : List Nat) :
    ∀ {c : Crew α}, c.Balanced p traces → (c.run schedule).Balanced p traces := by
  induction schedule with
  | nil => exact id
  | cons i schedule ih => exact fun h => ih (h.turn i)

omit [Weight α] in
/-- Once the work is done, the counters are those of the traces. -/
theorem Balanced.of_finished {p : Procedure} {traces : List TransactionTrace} {c : Crew α}
    (h : c.Balanced p traces) (hfinished : c.Finished) :
    c.learned = traces.countP (·.accepted p) ∧
      c.rejected = traces.countP fun t => !t.accepted p := by
  have hlearn : (c.workers.map (·.toLearn p)).sum = 0 := by
    refine List.sum_eq_zero fun n hn => ?_
    obtain ⟨w, hw, rfl⟩ := List.mem_map.mp hn
    obtain ⟨hcurrent, hqueue⟩ := hfinished w hw
    rw [Worker.toLearn, hcurrent, hqueue]
    rfl
  have hreject : (c.workers.map (·.toReject p)).sum = 0 := by
    refine List.sum_eq_zero fun n hn => ?_
    obtain ⟨w, hw, rfl⟩ := List.mem_map.mp hn
    rw [Worker.toReject, (hfinished w hw).2]
    rfl
  rw [← h.learned, ← h.rejected, hlearn, hreject]
  exact ⟨rfl, rfl⟩

/-! ## A single worker -/

def single (g : Graph α) (w : Worker) (learned rejected : Nat) : Crew α :=
  ⟨g, [w], learned, rejected⟩

theorem run_follow (t : TransactionTrace) (rest : List Step) (queue : List TransactionTrace)
    (learned rejected : Nat) (visits : List Visit) :
    ∀ (g : Graph α) (previous : VertexId),
      (single g ⟨some ⟨t, previous, visits.map .follow ++ rest⟩, queue⟩ learned rejected).run
          (List.replicate visits.length 0) =
        single (g.followAll t.sampleKey previous visits).1
          ⟨some ⟨t, (previous :: (g.followAll t.sampleKey previous visits).2).getLastD previous,
            rest⟩, queue⟩ learned rejected := by
  induction visits with
  | nil => exact fun _ _ => rfl
  | cons visit visits ih =>
      intro g previous
      have hfirst : (single g ⟨some ⟨t, previous, (visit :: visits).map .follow ++ rest⟩, queue⟩
          learned rejected).turn 0 =
            single (g.follow t.sampleKey previous visit).1
              ⟨some ⟨t, (g.follow t.sampleKey previous visit).2, visits.map .follow ++ rest⟩, queue⟩
              learned rejected := rfl
      rw [List.length_cons, List.replicate_succ, run_cons, hfirst, ih, Graph.followAll_cons,
        List.getLastD_cons, List.getLastD_cons, List.getLastD_cons]

/-- A worker that is alone learns an accepted trace as a walk. -/
theorem run_accepted {g : Graph α} {t : TransactionTrace} {visits : List Visit}
    (h : t.resolve g.procedure .recorded = .ok visits) (queue : List TransactionTrace)
    (learned rejected : Nat) :
    (single g ⟨none, t :: queue⟩ learned rejected).run
        (0 :: 0 :: (List.replicate visits.length 0 ++ [0, 0, 0])) =
      single (g.walk t visits).1 ⟨none, queue⟩ (learned + 1) rejected := by
  have hoffer : (single g ⟨none, t :: queue⟩ learned rejected).turn 0 =
      single g ⟨some (.fresh t visits), queue⟩ learned rejected := by
    simp only [turn, single, List.getElem?_cons_zero, h, List.set_cons_zero]
  have henter : (single g ⟨some (.fresh t visits), queue⟩ learned rejected).turn 0 =
      single (g.enter t.sampleKey t.elapsed)
        ⟨some ⟨t, Markers.fixed.start, visits.map .follow ++ [.leave, .count]⟩, queue⟩ learned
        rejected := rfl
  rw [run_cons, hoffer, run_cons, henter, run_append, run_follow]
  rfl

theorem run_refused {g : Graph α} {t : TransactionTrace} {fault : Fault}
    (h : t.resolve g.procedure .recorded = .error fault) (queue : List TransactionTrace)
    (learned rejected : Nat) :
    (single g ⟨none, t :: queue⟩ learned rejected).run [0] =
      single g ⟨none, queue⟩ learned (rejected + 1) := by
  show (single g ⟨none, t :: queue⟩ learned rejected).turn 0 = _
  simp only [turn, single, List.getElem?_cons_zero, h, List.set_cons_zero]

end Crew

/-! ## Replays -/

namespace ProcedureModel

/-- Offering a trace learns it, or leaves the graph as it is. -/
theorem graph_offer (m : ProcedureModel α) (t : TransactionTrace) :
    (m.offer t).graph = m.graph.perform (.learn t .recorded) := by
  unfold offer
  show _ = m.graph.orUnchanged (m.graph.learn t .recorded)
  cases m.graph.learn t .recorded <;> rfl

theorem offer_of_ok {m : ProcedureModel α} {t : TransactionTrace} {visits : List Visit}
    (hseeded : m.graph.seeded = true) (h : t.resolve m.graph.procedure .recorded = .ok visits) :
    m.offer t = ⟨(m.graph.walk t visits).1, m.learned + 1, m.rejected⟩ := by
  rw [offer, (Graph.learn_eq_ok_iff _ t .recorded _).mpr ⟨hseeded, visits, h, rfl⟩]

theorem offer_of_error {m : ProcedureModel α} {t : TransactionTrace} {fault : Fault}
    (h : t.resolve m.graph.procedure .recorded = .error fault) :
    m.offer t = ⟨m.graph, m.learned, m.rejected + 1⟩ := by
  obtain ⟨_, hlearn⟩ := m.graph.exists_learn_error h
  rw [offer, hlearn]

theorem graph_foldl_offer (traces : List TransactionTrace) :
    ∀ m : ProcedureModel α, (traces.foldl offer m).graph =
      m.graph.performAll (Graph.lessons (traces.map fun t => (t, .recorded))) := by
  induction traces with
  | nil => exact fun _ => rfl
  | cons t traces ih =>
      intro m
      rw [List.foldl_cons, ih, graph_offer]
      rfl

/-- A model that a crew has made of a batch of traces, however they were split among its workers
and whatever turns the workers have taken. -/
def Replays (p : Procedure) (s : ModelSettings α) (batch : List TransactionTrace)
    (m : ProcedureModel α) : Prop :=
  ∃ (queues : List (List TransactionTrace)) (schedule : List Nat), queues.flatten = batch ∧
    ((Crew.fresh p s queues).run schedule).Finished ∧
    ((Crew.fresh p s queues).run schedule).graph.recompute = .ok m.graph ∧
    ((Crew.fresh p s queues).run schedule).learned = m.learned ∧
    ((Crew.fresh p s queues).run schedule).rejected = m.rejected

theorem Replays.counts {p : Procedure} {s : ModelSettings α} {batch : List TransactionTrace}
    {m : ProcedureModel α} (h : Replays p s batch m) :
    m.learned = batch.countP (·.accepted p) ∧ m.rejected = batch.countP fun t => !t.accepted p := by
  obtain ⟨queues, schedule, rfl, hfinished, -, hlearned, hrejected⟩ := h
  rw [← hlearned, ← hrejected]
  exact ((Crew.balanced_fresh p s queues).run schedule).of_finished hfinished

/-- Offering traces one after the other is a run of a single worker. -/
theorem exists_single {p : Procedure} (traces : List TransactionTrace) :
    ∀ m : ProcedureModel α, m.graph.Marked → m.graph.seeded = true → m.graph.procedure = p →
      ∃ schedule, (Crew.single m.graph ⟨none, traces⟩ m.learned m.rejected).run schedule =
        .single (traces.foldl offer m).graph ⟨none, []⟩ (traces.foldl offer m).learned
          (traces.foldl offer m).rejected := by
  induction traces with
  | nil => exact fun m _ _ _ => ⟨[], rfl⟩
  | cons t traces ih =>
      intro m hmarked hseeded hp
      have hgrow := hmarked.perform_growth (.learn t .recorded)
      rw [← graph_offer] at hgrow
      obtain ⟨rest, hrest⟩ := ih (m.offer t) (hgrow.marked hmarked) (hgrow.seeded_of_seeded hseeded)
        (hgrow.procedure_eq.trans hp)
      rw [List.foldl_cons, ← hrest]
      cases hresolve : t.resolve m.graph.procedure .recorded with
      | ok visits =>
          exact ⟨_, by
            rw [Crew.run_append, Crew.run_accepted hresolve, offer_of_ok hseeded hresolve]⟩
      | error fault =>
          exact ⟨_, by rw [Crew.run_append, Crew.run_refused hresolve, offer_of_error hresolve]⟩

/-- A replay always comes to an end with a model, and it is one of the replays of a crew. -/
theorem exists_replay (p : Procedure) (s : ModelSettings α) (batch : List TransactionTrace) :
    ∃ m, replay p s batch = .ok m ∧ Replays p s batch m := by
  let m := batch.foldl offer (fresh p s)
  have hfresh : Graph.Reachable p s (fresh p s).graph := Graph.Reachable.empty.step .seed
  have hmarked := Graph.marked_of_reachable hfresh
  have hgraph : m.graph = _ := graph_foldl_offer batch (fresh p s)
  have hgrow : Graph.Growth (fresh p s).graph m.graph := by
    rw [hgraph]
    exact Graph.growth_performAll _ hmarked
  obtain ⟨g, hg⟩ := (hgrow.anchored (Graph.anchored_of_reachable hfresh)).exists_recompute
    (hgrow.seeded_of_seeded rfl)
  obtain ⟨schedule, hschedule⟩ := exists_single batch (fresh p s) hmarked rfl rfl
  have hrun : (Crew.fresh p s [batch]).run schedule =
      .single m.graph ⟨none, []⟩ m.learned m.rejected := hschedule
  -- the whole batch is the queue of a single worker
  refine ⟨{ m with graph := g }, ?_, [batch], schedule, List.flatten_singleton, ?_⟩
  · show (do let g ← m.graph.recompute; return { m with graph := g }) = _
    rw [hg]
    rfl
  · rw [hrun]
    exact ⟨List.forall_mem_singleton.mpr ⟨rfl, rfl⟩, hg, rfl, rfl⟩

end ProcedureModel

/-! ## Builds -/

/-- The outcomes that a build of the remaining procedures can have, given the models and the traces
that are there: `buildFrom`, with a crew for each replay. -/
inductive Builds (s : ModelSettings α) : Table ProcedureId (ProcedureModel α) →
    List TransactionTrace → List Procedure → BuildOutcome α → Prop
  | done (models : Table ProcedureId (ProcedureModel α)) (traces : List TransactionTrace) :
      Builds s models traces [] ⟨models, traces.length⟩
  | next {models : Table ProcedureId (ProcedureModel α)} {traces : List TransactionTrace}
      {p : Procedure} {ps : List Procedure} {m : ProcedureModel α} {o : BuildOutcome α}
      (hreplay : m.Replays p s (traces.filter fun t => decide (t.procedure = p.id)))
      (hrest : Builds s (models.insert p.id m)
        (traces.filter fun t => decide (t.procedure ≠ p.id)) ps o) :
      Builds s models traces (p :: ps) o

/-- The build one after the other always has an outcome, and it is one of these. -/
theorem exists_buildFrom (s : ModelSettings α) (ps : List Procedure) :
    ∀ (models : Table ProcedureId (ProcedureModel α)) (traces : List TransactionTrace),
      ∃ o, buildFrom s models traces ps = .ok o ∧ Builds s models traces ps o := by
  induction ps with
  | nil => exact fun models traces => ⟨_, rfl, .done models traces⟩
  | cons p ps ih =>
      intro models traces
      obtain ⟨m, hm, hreplay⟩ := ProcedureModel.exists_replay p s
        (traces.filter fun t => decide (t.procedure = p.id))
      obtain ⟨o, ho, hbuilds⟩ := ih (models.insert p.id m)
        (traces.filter fun t => decide (t.procedure ≠ p.id))
      refine ⟨o, ?_, .next hreplay hbuilds⟩
      show (do
        let m ← ProcedureModel.replay p s (traces.filter fun t => decide (t.procedure = p.id))
        buildFrom s (models.insert p.id m)
          (traces.filter fun t => decide (t.procedure ≠ p.id)) ps) = _
      rw [hm]
      exact ho

/-! ## Where the traces are counted -/

/-- The traces that the models have counted, other than those of the procedures `ids`. -/
def keptCounts (ids : List ProcedureId) (entries : List (ProcedureId × ProcedureModel α)) : Nat :=
  (entries.map fun e => if e.1 ∈ ids then 0 else e.2.learned + e.2.rejected).sum

omit [Weight α] in
theorem keptCounts_cons (ids : List ProcedureId) (e : ProcedureId × ProcedureModel α)
    (entries : List (ProcedureId × ProcedureModel α)) :
    keptCounts ids (e :: entries) =
      (if e.1 ∈ ids then 0 else e.2.learned + e.2.rejected) + keptCounts ids entries := by
  rw [keptCounts, List.map_cons, List.sum_cons, keptCounts]

omit [Weight α] in
theorem keptCounts_cons_of_not_mem {k : ProcedureId} (ids : List ProcedureId)
    {entries : List (ProcedureId × ProcedureModel α)} (h : k ∉ entries.map (·.1)) :
    keptCounts (k :: ids) entries = keptCounts ids entries := by
  refine congrArg List.sum (List.map_congr_left fun e he => ?_)
  have hne : e.1 ≠ k := fun heq => h (heq ▸ List.mem_map_of_mem he)
  simp only [List.mem_cons, hne, false_or]

omit [Weight α] in
theorem keptCounts_nil (o : BuildOutcome α) :
    keptCounts [] o.models.entries = o.learned + o.rejected := by
  show _ = (o.models.entries.map (·.2)).foldr (fun m n => m.learned + n) 0 +
    (o.models.entries.map (·.2)).foldr (fun m n => m.rejected + n) 0
  induction o.models.entries with
  | nil => rfl
  | cons e entries ih =>
      rw [keptCounts_cons, if_neg List.not_mem_nil, ih, List.map_cons, List.foldr_cons,
        List.foldr_cons]
      omega

omit [Weight α] in
/-- A model that is put in takes the place of the one that was there. -/
theorem keptCounts_insertEntry (k : ProcedureId) (m : ProcedureModel α) (ids : List ProcedureId)
    {entries : List (ProcedureId × ProcedureModel α)} (h : Ascending (entries.map (·.1))) :
    keptCounts ids (insertEntry k m entries) =
      keptCounts (k :: ids) entries + if k ∈ ids then 0 else m.learned + m.rejected := by
  induction entries with
  | nil => exact Nat.add_comm _ _
  | cons e entries ih =>
      obtain ⟨hfirst, hrest⟩ := List.pairwise_cons.mp h
      unfold insertEntry
      split
      · next hlt =>
          -- the entries ascend, so none of them has the key
          have hnew : k ∉ (e :: entries).map (·.1) := by
            intro hmem
            rcases List.mem_cons.mp hmem with rfl | hmem
            · exact Nat.lt_irrefl _ hlt
            · exact Nat.lt_asymm hlt (hfirst k hmem)
          rw [keptCounts_cons, keptCounts_cons_of_not_mem ids hnew, Nat.add_comm]
      · split
        · next heq =>
            have hkey : k = e.1 := rank_eq_iff.mp heq
            have hnew : k ∉ entries.map (·.1) := fun hmem =>
              absurd heq (Nat.ne_of_gt (hfirst k hmem))
            rw [keptCounts_cons, keptCounts_cons, keptCounts_cons_of_not_mem ids hnew, ← hkey,
              if_pos List.mem_cons_self, Nat.zero_add, Nat.add_comm]
        · next hne =>
            have hkey : e.1 ≠ k := fun heq => hne (by rw [heq])
            rw [keptCounts_cons, keptCounts_cons, ih hrest, Nat.add_assoc]
            simp only [List.mem_cons, hkey, false_or]

/-- The traces of one procedure, and the others. -/
theorem countP_split (traces : List TransactionTrace) (k : ProcedureId)
    (φ : TransactionTrace → Bool) :
    traces.countP φ = (traces.filter fun t => decide (t.procedure = k)).countP φ +
      (traces.filter fun t => decide (t.procedure ≠ k)).countP φ := by
  rw [List.countP_eq_countP_filter_add traces φ fun t => decide (t.procedure = k)]
  simp only [ne_eq, decide_not]

theorem count_of_mem_batch {traces : List TransactionTrace} {k : ProcedureId}
    (ids : List ProcedureId) {t : TransactionTrace}
    (ht : t ∈ traces.filter fun t => decide (t.procedure = k)) :
    (k :: ids).count t.procedure = ids.count k + 1 := by
  rw [of_decide_eq_true (List.mem_filter.mp ht).2, List.count_cons_self]

theorem count_of_mem_others {traces : List TransactionTrace} {k : ProcedureId}
    (ids : List ProcedureId) {t : TransactionTrace}
    (ht : t ∈ traces.filter fun t => decide (t.procedure ≠ k)) :
    (k :: ids).count t.procedure = ids.count t.procedure :=
  List.count_cons_of_ne (of_decide_eq_true (List.mem_filter.mp ht).2).symm

/-- The traces of the first procedure are counted unless the catalog lists it again. -/
theorem countP_listed_once (traces : List TransactionTrace) (k : ProcedureId)
    (ids : List ProcedureId) :
    traces.countP (fun t => decide ((k :: ids).count t.procedure = 1)) =
      (if k ∈ ids then 0 else (traces.filter fun t => decide (t.procedure = k)).length) +
        (traces.filter fun t => decide (t.procedure ≠ k)).countP
          fun t => decide (ids.count t.procedure = 1) := by
  rw [countP_split traces k]
  congr 1
  · split
    · next hmem =>
        refine List.countP_eq_zero.mpr fun t ht h => ?_
        have hpos := List.count_pos_iff.mpr hmem
        have hone := of_decide_eq_true h
        rw [count_of_mem_batch ids ht] at hone
        omega
    · next hmem =>
        refine List.countP_eq_length.mpr fun t ht => decide_eq_true ?_
        rw [count_of_mem_batch ids ht, List.count_eq_zero_of_not_mem hmem]
  · exact List.countP_congr fun t ht => by rw [count_of_mem_others ids ht]

theorem countP_unlisted (traces : List TransactionTrace) (k : ProcedureId)
    (ids : List ProcedureId) :
    traces.countP (fun t => decide ((k :: ids).count t.procedure = 0)) =
      (traces.filter fun t => decide (t.procedure ≠ k)).countP
        fun t => decide (ids.count t.procedure = 0) := by
  have hnone : (traces.filter fun t => decide (t.procedure = k)).countP
      (fun t => decide ((k :: ids).count t.procedure = 0)) = 0 := by
    refine List.countP_eq_zero.mpr fun t ht h => ?_
    have hzero := of_decide_eq_true h
    rw [count_of_mem_batch ids ht] at hzero
    omega
  rw [countP_split traces k, hnone, Nat.zero_add]
  exact List.countP_congr fun t ht => by rw [count_of_mem_others ids ht]

/-- What a build has counted in the end: the traces of procedures that are still listed once, and
those counted before, unless their procedures are still listed. -/
theorem Builds.accounts {s : ModelSettings α} {models : Table ProcedureId (ProcedureModel α)}
    {traces : List TransactionTrace} {ps : List Procedure} {o : BuildOutcome α}
    (h : Builds s models traces ps o) :
    o.learned + o.rejected = keptCounts (ps.map (·.id)) models.entries +
        traces.countP (fun t => decide ((ps.map (·.id)).count t.procedure = 1)) ∧
      o.orphaned = traces.countP fun t => decide ((ps.map (·.id)).count t.procedure = 0) := by
  induction h with
  | done models traces =>
      refine ⟨?_, ?_⟩
      · rw [List.map_nil, ← keptCounts_nil]
        simp only [List.count_nil, Nat.zero_ne_one, decide_false, List.countP_false]
        rfl
      · simp only [List.map_nil, List.count_nil, decide_true, List.countP_true]
  | @next models traces p ps m o hreplay hrest ih =>
      obtain ⟨hlearned, hrejected⟩ := hreplay.counts
      have hbatch : m.learned + m.rejected =
          (traces.filter fun t => decide (t.procedure = p.id)).length := by
        rw [hlearned, hrejected, List.length_eq_countP_add_countP (·.accepted p)]
        simp only [Bool.not_eq_true, Bool.decide_eq_false]
      -- the new model is kept unless its procedure is listed again
      have hinsert := keptCounts_insertEntry p.id m (ps.map (·.id)) models.ascending
      rw [hbatch] at hinsert
      rw [List.map_cons, countP_listed_once, countP_unlisted]
      refine ⟨?_, ih.2⟩
      calc o.learned + o.rejected
          = keptCounts (ps.map (·.id)) (insertEntry p.id m models.entries) + _ := ih.1
        _ = _ := by rw [hinsert, Nat.add_assoc]

theorem countP_le_one {β : Type} (f : β → Nat) (l : List β) :
    l.countP (fun b => decide (f b = 1)) + l.countP (fun b => decide (f b = 0)) =
      l.countP fun b => decide (f b ≤ 1) := by
  induction l with
  | nil => rfl
  | cons b l ih =>
      simp only [List.countP_cons, decide_eq_true_eq]
      split <;> split <;> split <;> omega

/-- A build always has an outcome, and however its replays are shared among threads, a trace is
counted as orphaned if the catalog does not list its procedure, and as learned or rejected if it
lists it once. A trace whose procedure is listed again is not counted at all, so the counts add up
if and only if there is no such trace. -/
theorem learned_add_rejected_add_orphaned (c : Catalog) (traces : List TransactionTrace)
    (s : ModelSettings α) :
    (∃ o, buildModels c traces s = .ok o ∧ Builds s ∅ traces c.procedures o) ∧
      ∀ o, Builds s ∅ traces c.procedures o →
        o.orphaned =
            traces.countP (fun t => decide ((c.procedures.map (·.id)).count t.procedure = 0)) ∧
          o.learned + o.rejected =
            traces.countP (fun t => decide ((c.procedures.map (·.id)).count t.procedure = 1)) ∧
          (o.learned + o.rejected + o.orphaned = traces.length ↔
            ∀ t ∈ traces, (c.procedures.map (·.id)).count t.procedure ≤ 1) := by
  refine ⟨exists_buildFrom s c.procedures ∅ traces, fun o ho => ?_⟩
  obtain ⟨hcounted, horphaned⟩ := ho.accounts
  have hnone : keptCounts (c.procedures.map (·.id))
      (∅ : Table ProcedureId (ProcedureModel α)).entries = 0 := rfl
  rw [hnone, Nat.zero_add] at hcounted
  refine ⟨horphaned, hcounted, ?_⟩
  rw [hcounted, horphaned, countP_le_one, List.countP_eq_length]
  exact forall₂_congr fun t _ => decide_eq_true_iff

/-- The only trace is learned by the first of two procedures of one id, and the second one's model
has none. -/
theorem counts_lost :
    ∃ o, buildModels ⟨[Graph.transfer, Graph.transfer]⟩ [Graph.transferTrace 1 false [10]]
        (.standard : ModelSettings Rat) = .ok o ∧
      o.learned + o.rejected + o.orphaned ≠ [Graph.transferTrace 1 false [10]].length := by
  have hsum : (buildModels ⟨[Graph.transfer, Graph.transfer]⟩ [Graph.transferTrace 1 false [10]]
      (.standard : ModelSettings Rat)).toOption.map
        (fun o => o.learned + o.rejected + o.orphaned) = some 0 := by
    decide +kernel
  obtain ⟨o, ho, hzero⟩ := Option.map_eq_some_iff.mp hsum
  refine ⟨o, eq_ok_of_toOption ho, ?_⟩
  rw [hzero]
  decide

end PathForecast
