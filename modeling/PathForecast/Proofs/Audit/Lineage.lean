import Mathlib
import PathForecast.Proofs.Audit.Recomputed

/-!
# Lineage

Vertices are shared by transactions that arrive with different histories. Every edge still runs
from a state to one that can follow it, because both ends are known by their identities: `Laid`
says so, and each change of a history keeps it. An audit then never reports an edge for the states
that it joins. Main statements: `laid_performAll` and `edges_performAll`.
-/

set_option autoImplicit false

namespace PathForecast

namespace Graph

variable {α : Type}

/-! ## What the audit reports -/

section Reports

variable [Weight α] {g : Graph α}

/-- What is reported about the outbound edges of a vertex. -/
theorem outboundViolation_cases {t : EdgeTotals α} {x : Vertex α} {epsilon : α}
    {w : Violation α} (h : t.outboundViolation x epsilon = some w) :
    x.state.isQuery = true ∧
      (w = .hitsNotConserved x.id x.hits.total t.outboundHits ∨
        w = .probabilityNotConserved x.id t.outboundProbability ∧ 0 < t.outDegree ∧
          Weight.lt epsilon (Weight.abs (t.outboundProbability - 1)) = true) := by
  unfold EdgeTotals.outboundViolation at h
  split at h
  · cases h
  · next hquery =>
      refine ⟨by simpa using hquery, ?_⟩
      split at h
      · exact .inl (Option.some.inj h).symm
      · split at h
        · next hbroken =>
            obtain ⟨hdegree, hfar⟩ := Bool.and_eq_true_iff.mp hbroken
            exact .inr ⟨(Option.some.inj h).symm, of_decide_eq_true hdegree, hfar⟩
        · cases h

theorem inboundViolation_cases {t : EdgeTotals α} {x : Vertex α} {epsilon : α}
    {w : Violation α} (h : t.inboundViolation x epsilon = some w) :
    w = .inboundProbabilityZero x.id := by
  unfold EdgeTotals.inboundViolation at h
  split at h
  · exact (Option.some.inj h).symm
  · cases h

/-- The places where the audit finds a broken rule. -/
inductive Reports (g : Graph α) : Violation α → Prop
  | element (x : ElementId) : Reports g (.duplicateElement x)
  | pair (e : Edge α) (he : e ∈ g.edges) : Reports g (.parallelEdge e.source e.dest)
  | edge (e : Edge α) (he : e ∈ g.edges) {w : Violation α} (h : g.edgeViolation e = some w) :
      Reports g w
  | outbound (x : Vertex α × EdgeTotals α) (hx : x ∈ g.verticesWithTotals) {w : Violation α}
      (h : x.2.outboundViolation x.1 g.settings.probabilityEpsilon = some w) : Reports g w
  | inbound (x : Vertex α × EdgeTotals α) (hx : x ∈ g.verticesWithTotals) {w : Violation α}
      (h : x.2.inboundViolation x.1 g.settings.probabilityEpsilon = some w) : Reports g w

theorem reports_of_firstEdgeViolation {w : Violation α} :
    ∀ {es : List (Edge α)} {seen : Std.TreeSet Nat}, (∀ e ∈ es, e ∈ g.edges) →
      g.firstEdgeViolation seen es = some w → g.Reports w
  | [], _, _, h => by cases h
  | e :: es, seen, hes, h => by
      have he := hes e List.mem_cons_self
      rw [firstEdgeViolation] at h
      split at h
      · cases h
        exact .pair e he
      · split at h
        · next hviolation =>
            cases h
            exact .edge e he hviolation
        · exact reports_of_firstEdgeViolation (fun f hf => hes f (List.mem_cons_of_mem _ hf)) h

theorem reports_of_validate {w : Violation α} (h : g.validate = .error w) : g.Reports w := by
  have hviolation : g.violation? = some w := by
    unfold validate at h
    split at h
    · next heq =>
        cases h
        exact heq
    · cases h
  unfold violation? at hviolation
  split at hviolation
  · cases hviolation
    exact .element _
  · split at hviolation
    · next hedge =>
        cases hviolation
        exact reports_of_firstEdgeViolation (fun e he => Array.mem_toList_iff.mp he) hedge
    · dsimp only at hviolation
      split at hviolation
      · next hout =>
          cases hviolation
          obtain ⟨x, hx, hw⟩ := List.exists_of_findSome?_eq_some hout
          exact .outbound x hx hw
      · obtain ⟨x, hx, hw⟩ := List.exists_of_findSome?_eq_some hviolation
        exact .inbound x hx hw

end Reports

/-! ## Edges between states that follow each other -/

/-- A seeded graph whose edges all run from a state to one that can follow it. -/
structure Laid (g : Graph α) : Prop where
  seeded : g.seeded = true
  marked : g.Marked
  arranged : g.Arranged
  leads : ∀ v w, g.Joined v w → g.Leads v w

variable [Weight α] {g k : Graph α}

theorem laid_fresh (p : Procedure) (s : ModelSettings α) : (fresh p s).Laid := by
  have h := tallied_fresh p s
  refine ⟨h.seeded, h.marked, h.arranged, fun v w hjoined => ?_⟩
  rw [Joined, edgeBetween_fresh] at hjoined
  cases hjoined

namespace Laid

theorem of_layout (hg : g.Laid) (h : k.layout = g.layout) : k.Laid := by
  have hgrow : Growth g k := .retain h
  refine ⟨hgrow.seeded_of_seeded hg.seeded, hgrow.marked hg.marked, hg.arranged.of_layout h,
    fun v w hjoined => hgrow.leads (hg.leads v w ?_)⟩
  rwa [Joined, edgeBetween_of_layout h] at hjoined

/-- The legs of a learned transaction are steps, and the edges that were there stay what they
are. -/
theorem learn (hg : g.Laid) {t : TransactionTrace} {estimator : Estimator}
    {path : List VertexId} (h : g.learn t estimator = .ok (k, path)) (hfit : k.Fits) :
    k.Laid := by
  have hwalked := walked_of_learn hg.arranged hg.marked h hfit
  refine ⟨hwalked.growth.seeded_of_seeded hg.seeded, hwalked.growth.marked hg.marked,
    hwalked.growth.arranged (fun _ => hg.arranged) hfit, fun v w hjoined => ?_⟩
  rcases (hwalked.joined v w).mp hjoined with hold | hleg
  · exact hwalked.growth.leads (hg.leads v w hold)
  · exact hwalked.route.leads (v, w) hleg

theorem perform (hg : g.Laid) {c : Change} (hc : c.Observes) (hfit : (g.perform c).Fits) :
    (g.perform c).Laid := by
  cases hc with
  | learn t estimator =>
      cases hlearn : g.learn t estimator with
      | error fault =>
          rw [perform_of_refused hlearn]
          exact hg
      | ok r =>
          rw [perform_of_learn hlearn] at hfit ⊢
          exact hg.learn hlearn hfit
  | recompute =>
      obtain ⟨k, hk⟩ := exists_recompute hg.arranged hg.seeded
      rw [perform_of_recompute hk]
      exact hg.of_layout (layout_of_recompute hk)
  | resetCounters => exact hg.of_layout (layout_resetCounters g)

omit [Weight α] in
/-- Both ends of an edge, and what their states have to do with each other. -/
theorem exists_ends (hg : g.Laid) {e : Edge α} (he : e ∈ g.edges) :
    ∃ x y, g.vertex? e.source = some x ∧ g.vertex? e.dest = some y ∧
      x.state.Precedes g.settings.usePastPartitions y.state := by
  have hjoined := hg.arranged.joined_of_mem (mem_edgesFrom.mpr ⟨he, rfl⟩)
  obtain ⟨s, d, hs, hd, hprecedes⟩ := hg.leads _ _ hjoined
  obtain ⟨x, hx, rfl⟩ := Option.map_eq_some_iff.mp hs
  obtain ⟨y, hy, rfl⟩ := Option.map_eq_some_iff.mp hd
  exact ⟨x, y, hx, hy, hprecedes⟩

omit [Weight α] in
/-- Of the rules for a single edge, only the one about its hits can be broken. -/
theorem edgeViolation_eq (hg : g.Laid) {e : Edge α} (he : e ∈ g.edges) {w : Violation α}
    (h : g.edgeViolation e = some w) :
    ∃ edgeHits sourceHits, w = .edgeExceedsSource e.id edgeHits sourceHits := by
  obtain ⟨x, y, hx, hy, hprecedes⟩ := hg.exists_ends he
  unfold edgeViolation at h
  simp only [hx, hy, lineage_eq_none e hprecedes, succession_eq_none e hprecedes] at h
  split at h
  · exact ⟨_, _, (Option.some.inj h).symm⟩
  · cases h

end Laid

theorem laid_performAll (cs : List Change) :
    ∀ {g : Graph α}, g.Laid → (∀ c ∈ cs, c.Observes) → (g.performAll cs).Fits →
      (g.performAll cs).Laid := by
  induction cs with
  | nil => exact fun hg _ _ => hg
  | cons c cs ih =>
      intro g hg hcs hfit
      have hmarked := (hg.marked.perform_growth c).marked hg.marked
      have hfitStep : (g.perform c).Fits := (growth_performAll cs hmarked).fits hfit
      exact ih (hg.perform (hcs c List.mem_cons_self) hfitStep)
        (fun d hd => hcs d (List.mem_cons_of_mem _ hd)) hfit

end Graph

/-! ## States that follow each other -/

namespace VertexState

variable {usePast : Bool} {s d : VertexState}

theorem Precedes.source_cases (h : s.Precedes usePast d) :
    s = .start ∨ ∃ k, s = .query k := by
  cases s with
  | start => exact .inl rfl
  | query k => exact .inr ⟨k, rfl⟩
  | commit => cases h.source
  | abort => cases h.source

theorem Precedes.dest_cases (h : s.Precedes usePast d) :
    (∃ k, d = .query k) ∨ d = .commit ∨ d = .abort := by
  cases d with
  | start => exact absurd rfl h.dest
  | query k => exact .inl ⟨k, rfl⟩
  | commit => exact .inr (.inl rfl)
  | abort => exact .inr (.inr rfl)

end VertexState

namespace Graph

variable {α : Type} [Weight α]

/-- At every point of a history, each edge runs from the start marker or a query vertex to a query
vertex or a terminal marker, counts one up between two runs of one statement, and, where past
partitions are part of an identity, hands over what its source has touched. So an audit never
reports an edge for its lineage or its succession. -/
theorem edges_performAll (p : Procedure) (s : ModelSettings α) (cs : List Change)
    (hcs : ∀ c ∈ cs, c.Observes) (hfit : ((fresh p s).performAll cs).Fits) :
    let g := (fresh p s).performAll cs
    (∀ e ∈ g.edges, ∃ x y, g.vertex? e.source = some x ∧ g.vertex? e.dest = some y ∧
      (x.state = .start ∨ ∃ k, x.state = .query k) ∧
      ((∃ l, y.state = .query l) ∨ y.state = .commit ∨ y.state = .abort) ∧
      (∀ k l, x.state = .query k → y.state = .query l → k.statement = l.statement →
        l.index.toNat = k.index.toNat + 1) ∧
      (s.usePastPartitions = true →
        (∀ l, x.state = .start → y.state = .query l → l.past = ∅) ∧
        ∀ k l, x.state = .query k → y.state = .query l → l.past = k.past ∪ k.partitions)) ∧
    ∀ w, g.validate = .error w →
      (∀ e expected found, w ≠ .pastPartitionLineage e expected found) ∧
        ∀ e i j, w ≠ .instanceSuccession e i j := by
  intro g
  have hg : g.Laid := laid_performAll cs (laid_fresh p s) hcs hfit
  have hsettings : g.settings = s := settings_performAll p s cs
  refine ⟨fun e he => ?_, fun w hw => ?_⟩
  · obtain ⟨x, y, hx, hy, hprecedes⟩ := hg.exists_ends he
    rw [hsettings] at hprecedes
    refine ⟨x, y, hx, hy, hprecedes.source_cases, hprecedes.dest_cases,
      fun k l hk hl hstatement => ?_, fun huse => ⟨fun l hstart hl => ?_, fun k l hk hl => ?_⟩⟩
    · rw [hk, hl] at hprecedes
      exact hprecedes.index rfl rfl (congrArg some hstatement)
    · rw [hstart, hl] at hprecedes
      have hpast := hprecedes.past huse rfl
      exact hpast.trans (by decide)
    · rw [hk, hl] at hprecedes
      exact hprecedes.past huse rfl
  · cases reports_of_validate hw with
    | element x => exact ⟨nofun, nofun⟩
    | pair e he => exact ⟨nofun, nofun⟩
    | edge e he h =>
        obtain ⟨_, _, rfl⟩ := hg.edgeViolation_eq he h
        exact ⟨nofun, nofun⟩
    | outbound x hx h =>
        obtain ⟨-, rfl | ⟨rfl, -⟩⟩ := outboundViolation_cases h
        · exact ⟨nofun, nofun⟩
        · exact ⟨nofun, nofun⟩
    | inbound x hx h =>
        obtain rfl := inboundViolation_cases h
        exact ⟨nofun, nofun⟩

/-- Two transactions that meet in a vertex, a reset, and one that follows other partitions. -/
def meeting : List Change :=
  [.learn ⟨⟨1⟩, ⟨1⟩, 0, 9, false, some ⟨0⟩,
      [⟨⟨10⟩, 1, 2, none⟩, ⟨⟨10⟩, 3, 4, some (.singleton ⟨1⟩)⟩, ⟨⟨11⟩, 5, 6, none⟩]⟩ .recorded,
    .recompute,
    .learn ⟨⟨2⟩, ⟨1⟩, 0, 9, true, some ⟨0⟩,
      [⟨⟨10⟩, 1, 2, none⟩, ⟨⟨11⟩, 3, 4, some (.singleton ⟨2⟩)⟩]⟩ .recorded,
    .resetCounters,
    .learn ⟨⟨3⟩, ⟨1⟩, 0, 9, false, some ⟨1⟩, [⟨⟨11⟩, 1, 2, none⟩, ⟨⟨10⟩, 3, 4, none⟩]⟩ .recorded]

theorem edges_performAll_meeting :
    let g := (fresh transfer (.standard : ModelSettings Rat)).performAll meeting
    g.edges.size = 9 ∧
      ∀ e ∈ g.edges, ∃ x y, g.vertex? e.source = some x ∧ g.vertex? e.dest = some y ∧
        ∀ k l, x.state = .query k → y.state = .query l → l.past = k.past ∪ k.partitions := by
  intro g
  have hobserves : ∀ c ∈ meeting, c.Observes := by
    simp only [meeting, List.forall_mem_cons]
    exact ⟨.learn _ _, .recompute, .learn _ _, .resetCounters, .learn _ _, nofun⟩
  have hfit : g.Fits := ⟨by decide +kernel, by decide +kernel⟩
  obtain ⟨hedges, -⟩ := edges_performAll transfer .standard meeting hobserves hfit
  refine ⟨by decide +kernel, fun e he => ?_⟩
  obtain ⟨x, y, hx, hy, -, -, -, hpast⟩ := hedges e he
  exact ⟨x, y, hx, hy, (hpast rfl).2⟩

end Graph

end PathForecast
