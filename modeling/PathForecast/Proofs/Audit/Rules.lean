import Mathlib
import PathForecast.Proofs.Audit.Lineage

/-!
# The rules of an audit

What an audit looks for can be said of a graph as a whole: `Lawful` lists the rules, and `Breaks`
says for each violation what it takes for a graph to deserve it. An audit walks over ids, edges and
vertices and stops at the first violation, so that what it does not get to see is not judged.
Main statements: `Housed.lawful_of_validate`, a graph that passes keeps all rules,
`Housed.breaks_of_validate`, whatever is reported is true, with its numbers, and `validate_exact`,
both of them for every reachable graph.
-/

set_option autoImplicit false

namespace PathForecast

deriving instance DecidableEq for Violation

/-! ## Tolerances -/

namespace Weight

variable {α : Type} [Weight α]

def NearOne (epsilon a : α) : Prop := Weight.lt epsilon (Weight.abs (a - 1)) = false

def Above (epsilon a : α) : Prop := Weight.le a epsilon = false

theorem nearOne_iff (epsilon a : Rat) : NearOne epsilon a ↔ |a - 1| ≤ epsilon := by
  have habs : Weight.abs (a - 1) = |a - 1| := by
    show (if a - 1 < 0 then -(a - 1) else a - 1) = |a - 1|
    split
    · next hneg => exact (abs_of_neg hneg).symm
    · next hpos => exact (abs_of_nonneg (not_lt.mp hpos)).symm
  rw [NearOne, habs, ← not_lt]
  exact decide_eq_false_iff_not

theorem above_iff (epsilon a : Rat) : Above epsilon a ↔ epsilon < a := by
  rw [Above, ← not_le]
  exact decide_eq_false_iff_not

end Weight

/-! ## Repeated entries -/

/-- What occurs twice among the images of an injection has occurred twice before. -/
theorem duplicate_of_map {β γ : Type} {f : β → γ} (hf : Function.Injective f) {x : β} {l : List β}
    (h : List.Duplicate (f x) (l.map f)) : List.Duplicate x l := by
  classical
  rw [List.duplicate_iff_two_le_count] at h ⊢
  rwa [List.count_map_of_injective _ f hf] at h

/-- The first repeated number was seen before or occurs twice. -/
theorem firstRepeat_eq_some {n : Nat} :
    ∀ {xs : List Nat} {seen : Std.TreeSet Nat}, firstRepeat seen xs = some n →
      (n ∈ seen ∧ n ∈ xs) ∨ List.Duplicate n xs
  | [], _, h => by cases h
  | x :: xs, seen, h => by
      rw [firstRepeat] at h
      split at h
      · next hseen =>
          cases h
          exact .inl ⟨hseen, List.mem_cons_self⟩
      · rcases firstRepeat_eq_some h with ⟨hmem, hxs⟩ | hduplicate
        · rcases (mem_insert_nat seen x n).mp hmem with rfl | hseen
          · exact .inr (.cons_mem hxs)
          · exact .inl ⟨hseen, List.mem_cons_of_mem _ hxs⟩
        · exact .inr (hduplicate.duplicate_cons x)

namespace Graph

variable {α : Type}

/-! ## The rules -/

def elements (g : Graph α) : List ElementId :=
  g.vertices.toList.map (·.element) ++ g.edges.toList.map (·.element)

def Runs (g : Graph α) (e : Edge α) (x y : Vertex α) : Prop :=
  g.vertex? e.source = some x ∧ g.vertex? e.dest = some y

def hitSum (es : List (Edge α)) : Nat := (es.map (·.hits.total.toNat)).sum

def flow [Weight α] (es : List (Edge α)) : α := es.foldl (fun a e => a + e.probability) 0

variable [Weight α]

/-- The rules that an audit checks. -/
structure Lawful (g : Graph α) : Prop where
  /-- No two elements share an id. -/
  distinct : g.elements.Nodup
  /-- No two edges join the same ordered pair. -/
  single : (g.edges.toList.map (·.pair)).Nodup
  ends : ∀ e ∈ g.edges, ∃ x y, g.Runs e x y
  /-- No edge was taken more often than its source was reached. -/
  hits : ∀ e ∈ g.edges, ∀ x, g.vertex? e.source = some x → e.hits.total ≤ x.hits.total
  /-- A query vertex carries the partitions that were touched on the way to it. -/
  lineage : g.settings.usePastPartitions = true → ∀ e ∈ g.edges, ∀ x y, g.Runs e x y →
    (x.state = .start ∨ x.state.isQuery = true) → y.state.isQuery = true →
      y.state.past = x.state.touched
  /-- Invocations of a statement that follow each other count up by one. -/
  succession : ∀ e ∈ g.edges, ∀ x y, g.Runs e x y →
    x.state.isQuery = true → y.state.isQuery = true → x.state.statement? = y.state.statement? →
      y.state.index.toNat = x.state.index.toNat + 1
  /-- Whoever reaches a query vertex leaves it. -/
  conserved : ∀ x ∈ g.vertices, x.state.isQuery = true →
    x.hits.total.toNat = hitSum (g.edgesFrom x.id)
  outflow : ∀ x ∈ g.vertices, x.state.isQuery = true → g.edgesFrom x.id ≠ [] →
    Weight.NearOne g.settings.probabilityEpsilon (flow (g.edgesFrom x.id))
  inflow : ∀ x ∈ g.vertices, 0 < hitSum (g.edgesInto x.id) →
    Weight.Above g.settings.probabilityEpsilon (flow (g.edgesInto x.id))

/-- A violation that the graph deserves: what it names is in the graph and breaks the rule, and its
numbers are those of the graph. -/
inductive Breaks (g : Graph α) : Violation α → Prop
  | duplicateElement {x : ElementId} (h : List.Duplicate x g.elements) :
      Breaks g (.duplicateElement x)
  | parallelEdge {source dest : VertexId}
      (h : List.Duplicate (source, dest) (g.edges.toList.map (·.pair))) :
      Breaks g (.parallelEdge source dest)
  | danglingEdge {e : Edge α} (he : e ∈ g.edges) (h : ∀ x y, ¬g.Runs e x y) :
      Breaks g (.danglingEdge e.id)
  | edgeExceedsSource {e : Edge α} {x : Vertex α} (he : e ∈ g.edges)
      (hx : g.vertex? e.source = some x) (h : x.hits.total < e.hits.total) :
      Breaks g (.edgeExceedsSource e.id e.hits.total x.hits.total)
  | pastPartitionLineage {e : Edge α} {x y : Vertex α}
      (huse : g.settings.usePastPartitions = true) (he : e ∈ g.edges) (hruns : g.Runs e x y)
      (hx : x.state = .start ∨ x.state.isQuery = true) (hy : y.state.isQuery = true)
      (h : y.state.past ≠ x.state.touched) :
      Breaks g (.pastPartitionLineage e.id x.state.touched y.state.past)
  | instanceSuccession {e : Edge α} {x y : Vertex α} (he : e ∈ g.edges) (hruns : g.Runs e x y)
      (hx : x.state.isQuery = true) (hy : y.state.isQuery = true)
      (hsame : x.state.statement? = y.state.statement?)
      (h : y.state.index.toNat ≠ x.state.index.toNat + 1) :
      Breaks g (.instanceSuccession e.id x.state.index y.state.index)
  | hitsNotConserved {x : Vertex α} {edgeHits : UInt64} (hx : x ∈ g.vertices)
      (hquery : x.state.isQuery = true) (hsum : edgeHits.toNat = hitSum (g.edgesFrom x.id))
      (h : x.hits.total ≠ edgeHits) :
      Breaks g (.hitsNotConserved x.id x.hits.total edgeHits)
  | probabilityNotConserved {x : Vertex α} (hx : x ∈ g.vertices)
      (hquery : x.state.isQuery = true) (hne : g.edgesFrom x.id ≠ [])
      (h : ¬Weight.NearOne g.settings.probabilityEpsilon (flow (g.edgesFrom x.id))) :
      Breaks g (.probabilityNotConserved x.id (flow (g.edgesFrom x.id)))
  | inboundProbabilityZero {x : Vertex α} (hx : x ∈ g.vertices)
      (hhits : 0 < hitSum (g.edgesInto x.id))
      (h : ¬Weight.Above g.settings.probabilityEpsilon (flow (g.edgesInto x.id))) :
      Breaks g (.inboundProbabilityZero x.id)

/-- A graph that deserves a violation does not keep the rules. -/
theorem Breaks.not_lawful {g : Graph α} {w : Violation α} (h : g.Breaks w) : ¬g.Lawful := by
  intro hg
  cases h with
  | duplicateElement h => exact h.not_nodup hg.distinct
  | parallelEdge h => exact h.not_nodup hg.single
  | danglingEdge he h =>
      obtain ⟨x, y, hruns⟩ := hg.ends _ he
      exact h x y hruns
  | edgeExceedsSource he hx h => exact UInt64.not_lt.mpr (hg.hits _ he _ hx) h
  | pastPartitionLineage huse he hruns hx hy h => exact h (hg.lineage huse _ he _ _ hruns hx hy)
  | instanceSuccession he hruns hx hy hsame h =>
      exact h (hg.succession _ he _ _ hruns hx hy hsame)
  | hitsNotConserved hx hquery hsum h =>
      exact h (UInt64.toNat_inj.mp ((hg.conserved _ hx hquery).trans hsum.symm))
  | probabilityNotConserved hx hquery hne h => exact h (hg.outflow _ hx hquery hne)
  | inboundProbabilityZero hx hhits h => exact h (hg.inflow _ hx hhits)

/-! ## Single edges -/

section Edges

omit [Weight α]

variable {g : Graph α} {e : Edge α} {x y : Vertex α} {w : Violation α}

/-- What is expected of the destination is what the source has touched. -/
theorem expectedPast?_eq_some_iff {s : VertexState} {expected : PartitionSet} :
    expectedPast? s = some expected ↔
      (s = .start ∨ s.isQuery = true) ∧ expected = s.touched := by
  cases s with
  | start =>
      -- nothing has been touched at the start
      have htouched : VertexState.start.touched = ∅ := by decide
      show some ∅ = some expected ↔ _
      rw [htouched, Option.some.injEq, eq_comm (a := expected)]
      exact (and_iff_right (.inl rfl)).symm
  | query key =>
      show some (VertexState.query key).touched = some expected ↔ _
      rw [Option.some.injEq, eq_comm (a := expected)]
      exact (and_iff_right (.inr rfl)).symm
  | commit => simp [expectedPast?, VertexState.kind, VertexState.isQuery]
  | abort => simp [expectedPast?, VertexState.kind, VertexState.isQuery]

theorem lineage_eq_some_iff {s d : VertexState} :
    edgeViolation.lineage g e s d = some w ↔
      g.settings.usePastPartitions = true ∧ d.isQuery = true ∧
        (s = .start ∨ s.isQuery = true) ∧ d.past ≠ s.touched ∧
          w = .pastPartitionLineage e.id s.touched d.past := by
  unfold edgeViolation.lineage
  split
  · next hquery =>
      obtain ⟨huse, hquery⟩ := Bool.and_eq_true_iff.mp hquery
      split
      · next expected hexpected =>
          obtain ⟨hs, rfl⟩ := expectedPast?_eq_some_iff.mp hexpected
          simp [huse, hquery, hs, eq_comm (b := d.past), eq_comm (a := w)]
      · next hnone =>
          have hs : ¬(s = .start ∨ s.isQuery = true) := by
            intro hs
            rw [expectedPast?_eq_some_iff.mpr ⟨hs, rfl⟩] at hnone
            cases hnone
          simp [hs]
  · next hquery =>
      rw [Bool.and_eq_true_iff] at hquery
      constructor
      · nofun
      · rintro ⟨huse, hd, -⟩
        exact absurd ⟨huse, hd⟩ hquery

theorem succession_eq_some_iff {s d : VertexState} :
    edgeViolation.succession e s d = some w ↔
      s.isQuery = true ∧ d.isQuery = true ∧ s.statement? = d.statement? ∧
        d.index.toNat ≠ s.index.toNat + 1 ∧ w = .instanceSuccession e.id s.index d.index := by
  unfold edgeViolation.succession
  rw [eq_comm (a := w), ne_comm (a := d.index.toNat)]
  simp only [Option.ite_none_right_eq_some, Bool.and_eq_true, decide_eq_true_eq,
    Option.some.injEq, and_assoc, ne_eq]

/-- An edge with both ends is judged by its hits, then by the states that it joins. -/
theorem edgeViolation_eq_some_iff (h : g.Runs e x y) :
    g.edgeViolation e = some w ↔
      if x.hits.total < e.hits.total then w = .edgeExceedsSource e.id e.hits.total x.hits.total
      else edgeViolation.lineage g e x.state y.state = some w ∨
        edgeViolation.lineage g e x.state y.state = none ∧
          edgeViolation.succession e x.state y.state = some w := by
  unfold edgeViolation
  simp only [h.1, h.2]
  split
  · rw [Option.some.injEq, eq_comm]
  · cases edgeViolation.lineage g e x.state y.state <;> simp

/-- What an edge without a violation has to do with its ends. -/
theorem rules_of_edgeViolation (hnone : g.edgeViolation e = none) (hruns : g.Runs e x y) :
    e.hits.total ≤ x.hits.total ∧
      (g.settings.usePastPartitions = true → (x.state = .start ∨ x.state.isQuery = true) →
        y.state.isQuery = true → y.state.past = x.state.touched) ∧
      (x.state.isQuery = true → y.state.isQuery = true →
        x.state.statement? = y.state.statement? →
          y.state.index.toNat = x.state.index.toNat + 1) := by
  have hnever : ∀ w, g.edgeViolation e ≠ some w := fun w hw => by rw [hnone] at hw; cases hw
  simp only [ne_eq, edgeViolation_eq_some_iff hruns] at hnever
  split at hnever
  · exact absurd rfl (hnever _)
  · next hhits =>
      refine ⟨UInt64.not_lt.mp hhits, fun huse hx hy => ?_, fun hx hy hsame => ?_⟩
      · by_contra hpast
        exact hnever _ (.inl (lineage_eq_some_iff.mpr ⟨huse, hy, hx, hpast, rfl⟩))
      · have hlineage : edgeViolation.lineage g e x.state y.state = none :=
          Option.eq_none_iff_forall_ne_some.mpr fun w hw => hnever w (.inl hw)
        by_contra hindex
        exact hnever _ (.inr ⟨hlineage, succession_eq_some_iff.mpr ⟨hx, hy, hsame, hindex, rfl⟩⟩)

theorem edgeViolation_of_not_runs (h : ∀ x y, ¬g.Runs e x y) :
    g.edgeViolation e = some (.danglingEdge e.id) := by
  unfold edgeViolation
  split
  · next x y hx hy => exact absurd ⟨hx, hy⟩ (h x y)
  · rfl

end Edges

section Walk

omit [Weight α]

variable {g : Graph α} {e : Edge α} {w : Violation α}

/-- What the rules say of a single edge. -/
theorem breaks_of_edgeViolation [Weight α] (he : e ∈ g.edges) (h : g.edgeViolation e = some w) :
    g.Breaks w := by
  by_cases hruns : ∃ x y, g.Runs e x y
  · obtain ⟨x, y, hruns⟩ := hruns
    rw [edgeViolation_eq_some_iff hruns] at h
    split at h
    · next hhits =>
        subst h
        exact .edgeExceedsSource he hruns.1 hhits
    · rcases h with hlineage | ⟨-, hsuccession⟩
      · obtain ⟨huse, hy, hx, hpast, rfl⟩ := lineage_eq_some_iff.mp hlineage
        exact .pastPartitionLineage huse he hruns hx hy hpast
      · obtain ⟨hx, hy, hsame, hindex, rfl⟩ := succession_eq_some_iff.mp hsuccession
        exact .instanceSuccession he hruns hx hy hsame hindex
  · have hdangling : ∀ x y, ¬g.Runs e x y := fun x y hxy => hruns ⟨x, y, hxy⟩
    rw [edgeViolation_of_not_runs hdangling, Option.some.injEq] at h
    subst h
    exact .danglingEdge he hdangling

theorem pairNumber_eq_iff (e f : Edge α) : pairNumber e = pairNumber f ↔ e.pair = f.pair := by
  constructor
  · intro h
    obtain ⟨hs, hd⟩ := pairNumber_inj h
    exact Prod.ext hs hd
  · intro h
    obtain ⟨hs, hd⟩ := Prod.mk.inj h
    rw [pairNumber, pairNumber, hs, hd]

theorem nodup_pairNumbers_iff (es : List (Edge α)) :
    (es.map pairNumber).Nodup ↔ (es.map (·.pair)).Nodup := by
  simp only [List.Nodup, List.pairwise_map, ne_eq, pairNumber_eq_iff]

/-- The walk over the edges ends early at a pair that comes again or at an edge with a violation of
its own. -/
theorem firstEdgeViolation_eq_some :
    ∀ {es : List (Edge α)} {seen : Std.TreeSet Nat}, g.firstEdgeViolation seen es = some w →
      (∃ e ∈ es, g.edgeViolation e = some w) ∨
        ∃ e ∈ es, w = .parallelEdge e.source e.dest ∧
          (pairNumber e ∈ seen ∨ List.Duplicate e.pair (es.map (·.pair)))
  | [], _, h => by cases h
  | e :: es, seen, h => by
      rw [firstEdgeViolation] at h
      split at h
      · next hseen =>
          cases h
          exact .inr ⟨e, List.mem_cons_self, rfl, .inl hseen⟩
      · split at h
        · next hviolation =>
            cases h
            exact .inl ⟨e, List.mem_cons_self, hviolation⟩
        · rcases firstEdgeViolation_eq_some h with ⟨f, hf, hviolation⟩ | ⟨f, hf, hw, hagain⟩
          · exact .inl ⟨f, List.mem_cons_of_mem _ hf, hviolation⟩
          · refine .inr ⟨f, List.mem_cons_of_mem _ hf, hw, ?_⟩
            rcases hagain with hins | hduplicate
            · rcases (mem_insert_nat seen _ _).mp hins with hnumber | hseen
              · rw [List.map_cons, (pairNumber_eq_iff e f).mp hnumber]
                exact .inr (.cons_mem (List.mem_map_of_mem hf))
              · exact .inl hseen
            · exact .inr (hduplicate.duplicate_cons e.pair)

/-- The walk over the edges comes to the end if all pairs are new and no edge has a violation. -/
theorem firstEdgeViolation_eq_none_iff (es : List (Edge α)) :
    ∀ seen : Std.TreeSet Nat, g.firstEdgeViolation seen es = none ↔
      (es.map pairNumber).Nodup ∧ (∀ e ∈ es, pairNumber e ∉ seen) ∧
        ∀ e ∈ es, g.edgeViolation e = none := by
  induction es with
  | nil => simp [firstEdgeViolation]
  | cons e es ih =>
      intro seen
      refine ⟨fun h => ?_, fun h => firstEdgeViolation_eq_none h.1 h.2.1 h.2.2⟩
      rw [firstEdgeViolation] at h
      split at h
      · cases h
      · next hseen =>
          split at h
          · cases h
          · next hnone =>
              obtain ⟨hnodup, hfresh, hrest⟩ := (ih _).mp h
              refine ⟨?_, ?_, List.forall_mem_cons.mpr ⟨hnone, hrest⟩⟩
              · refine List.nodup_cons.mpr ⟨fun hmem => ?_, hnodup⟩
                obtain ⟨f, hf, hnumber⟩ := List.mem_map.mp hmem
                exact hfresh f hf ((mem_insert_nat _ _ _).mpr (.inl hnumber.symm))
              · refine List.forall_mem_cons.mpr ⟨hseen, fun f hf hmem => ?_⟩
                exact hfresh f hf ((mem_insert_nat _ _ _).mpr (.inr hmem))

end Walk

/-! ## Sums at a vertex -/

section Totals

variable {g : Graph α} {x : Vertex α} {w : Violation α}

/-- The ids of the vertices name slots of the graph. -/
def Housed (g : Graph α) : Prop := ∀ x ∈ g.vertices, x.id.slot < g.vertices.size

omit [Weight α] in
theorem Housed.of_layout {k : Graph α} (hg : g.Housed) (h : k.layout = g.layout) : k.Housed := by
  intro y hy
  obtain ⟨i, hi⟩ := Array.mem_iff_getElem?.mp hy
  obtain ⟨x, hx, hframe⟩ := vertex_of_layout h hi
  rw [size_vertices_of_layout h, ← ((x.frame_eq_iff y).mp hframe).1]
  exact hg x (Array.mem_of_getElem? hx)

theorem Housed.pushVertex (hg : g.Housed) (state : VertexState) : (g.pushVertex state).Housed := by
  intro x hx
  rw [size_pushVertex]
  rcases Array.mem_push.mp hx with hold | rfl
  · exact Nat.lt_succ_of_lt (hg x hold)
  · -- also an id that has wrapped around names a slot
    exact Nat.lt_succ_of_le (Nat.mod_le _ _)

theorem Housed.pushEdge (hg : g.Housed) (source dest : VertexId) :
    (g.pushEdge source dest).Housed := by
  intro x hx
  obtain ⟨i, hi⟩ := Array.mem_iff_getElem?.mp hx
  rw [vertices_pushEdge, updateVertex] at hi ⊢
  rw [Array.getElem?_modify] at hi
  rw [Array.size_modify]
  split at hi
  · obtain ⟨y, hy, rfl⟩ := Option.map_eq_some_iff.mp hi
    exact hg y (Array.mem_of_getElem? hy)
  · exact hg x (Array.mem_of_getElem? hi)

theorem Growth.housed {k : Graph α} (h : Growth g k) (hg : g.Housed) : k.Housed := by
  induction h with
  | retain h => exact hg.of_layout h
  | remember => exact hg
  | markers h =>
      rw [seed_of_unseeded h]
      exact ((hg.pushVertex .start).pushVertex .commit).pushVertex .abort
  | query key _ _ _ => exact hg.pushVertex (.query key)
  | edge source dest _ _ _ => exact hg.pushEdge source dest
  | trans _ _ ih₁ ih₂ => exact ih₂ (ih₁ hg)

theorem housed_of_reachable {p : Procedure} {s : ModelSettings α} (h : Reachable p s g) :
    g.Housed :=
  (growth_of_reachable h).housed nofun

/-- The probabilities at one vertex are added up in the order of the edges. -/
theorem outboundProbability_totalsAt_eq (g : Graph α) (v : VertexId) :
    (g.totalsAt v).outboundProbability = flow (g.edgesFrom v) := by
  rw [totalsAt, flow, edgesFrom, List.foldl_filter]
  refine (List.foldl_hom EdgeTotals.outboundProbability fun t e => ?_).symm
  by_cases hs : e.source = v <;> by_cases hd : e.dest = v <;>
    simp [tallyEdge, hs, hd, EdgeTotals.addOutbound, EdgeTotals.addInbound]

theorem inboundProbability_totalsAt_eq (g : Graph α) (v : VertexId) :
    (g.totalsAt v).inboundProbability = flow (g.edgesInto v) := by
  rw [totalsAt, flow, edgesInto, List.foldl_filter]
  refine (List.foldl_hom EdgeTotals.inboundProbability fun t e => ?_).symm
  by_cases hs : e.source = v <;> by_cases hd : e.dest = v <;>
    simp [tallyEdge, hs, hd, EdgeTotals.addOutbound, EdgeTotals.addInbound]

theorem outDegree_totalsAt_pos_iff (g : Graph α) (v : VertexId) :
    0 < (g.totalsAt v).outDegree ↔ g.edgesFrom v ≠ [] := by
  rw [outDegree_totalsAt, List.length_pos_iff]

/-- A sum that stops at the largest word is above zero if the true sum is. -/
theorem inboundHits_totalsAt_pos_iff (g : Graph α) (v : VertexId) :
    0 < (g.totalsAt v).inboundHits ↔ 0 < hitSum (g.edgesInto v) := by
  have hlargest : 0 < UInt64.size - 1 := by decide
  rw [UInt64.lt_iff_toNat_lt, inboundHits_totalsAt, UInt64.toNat_zero, lt_min_iff, hitSum]
  exact and_iff_left hlargest

theorem toNat_outboundHits_totalsAt {v : VertexId} (h : hitSum (g.edgesFrom v) < UInt64.size) :
    (g.totalsAt v).outboundHits.toNat = hitSum (g.edgesFrom v) := by
  rw [outboundHits_totalsAt]
  exact min_eq_left (Nat.le_sub_one_of_lt h)

/-- What is reported about the outbound edges of a vertex is true of them. -/
theorem outboundViolation_eq_some_iff {t : EdgeTotals α} {epsilon : α} :
    t.outboundViolation x epsilon = some w ↔
      x.state.isQuery = true ∧
        if x.hits.total = t.outboundHits then
          0 < t.outDegree ∧ ¬Weight.NearOne epsilon t.outboundProbability ∧
            w = .probabilityNotConserved x.id t.outboundProbability
        else w = .hitsNotConserved x.id x.hits.total t.outboundHits := by
  unfold EdgeTotals.outboundViolation
  by_cases hquery : x.state.isQuery = true
  · by_cases hhits : x.hits.total = t.outboundHits
    · simp [hquery, hhits, Weight.NearOne, and_assoc, eq_comm (a := w)]
    · simp [hquery, hhits, eq_comm (a := w)]
  · simp [hquery]

theorem outboundViolation_eq_none_iff {t : EdgeTotals α} {epsilon : α} :
    t.outboundViolation x epsilon = none ↔
      (x.state.isQuery = true → x.hits.total = t.outboundHits ∧
        (0 < t.outDegree → Weight.NearOne epsilon t.outboundProbability)) := by
  unfold EdgeTotals.outboundViolation
  by_cases hquery : x.state.isQuery = true
  · by_cases hhits : x.hits.total = t.outboundHits
    · simp [hquery, hhits, Weight.NearOne]
    · simp [hquery, hhits]
  · simp [hquery]

theorem inboundViolation_eq_none_iff {t : EdgeTotals α} {epsilon : α} :
    t.inboundViolation x epsilon = none ↔
      (0 < t.inboundHits → Weight.Above epsilon t.inboundProbability) := by
  unfold EdgeTotals.inboundViolation
  simp [Weight.Above]

theorem inboundViolation_eq_some_iff {t : EdgeTotals α} {epsilon : α} :
    t.inboundViolation x epsilon = some w ↔
      0 < t.inboundHits ∧ ¬Weight.Above epsilon t.inboundProbability ∧
        w = .inboundProbabilityZero x.id := by
  unfold EdgeTotals.inboundViolation
  simp [Weight.Above, and_assoc, eq_comm (a := w)]

end Totals

/-! ## The passes of an audit -/

def outboundFinding (g : Graph α) : Option (Violation α) :=
  g.verticesWithTotals.findSome? fun x =>
    x.2.outboundViolation x.1 g.settings.probabilityEpsilon

def inboundFinding (g : Graph α) : Option (Violation α) :=
  g.verticesWithTotals.findSome? fun x =>
    x.2.inboundViolation x.1 g.settings.probabilityEpsilon

/-- The passes of an audit: ids, edges, outbound sums, inbound sums. A later pass decides only if
the earlier ones have found nothing. -/
theorem violation?_eq_or (g : Graph α) :
    g.violation? = ((firstRepeat ∅ g.elementNumbers).map fun n =>
      .duplicateElement ⟨n.toUInt64⟩).or
        ((g.firstEdgeViolation ∅ g.edges.toList).or (g.outboundFinding.or g.inboundFinding)) := by
  unfold violation?
  cases firstRepeat ∅ g.elementNumbers with
  | some n => rfl
  | none =>
      cases g.firstEdgeViolation ∅ g.edges.toList with
      | some w => rfl
      | none =>
          rw [Option.map_none, Option.none_or, Option.none_or, outboundFinding]
          dsimp only
          generalize g.verticesWithTotals.findSome? (fun x =>
            x.2.outboundViolation x.1 g.settings.probabilityEpsilon) = out
          cases out <;> rfl

theorem validate_eq_error_iff (g : Graph α) (w : Violation α) :
    g.validate = .error w ↔ g.violation? = some w := by
  unfold validate
  cases g.violation? <;> simp

theorem validate_eq_ok_iff (g : Graph α) : g.validate = .ok () ↔ g.violation? = none := by
  unfold validate
  cases g.violation? <;> simp

/-! ## Soundness and completeness -/

section Findings

variable {g : Graph α} {w : Violation α}

omit [Weight α] in
theorem elementNumbers_eq (g : Graph α) :
    g.elementNumbers = g.elements.map (·.number.toNat) := by
  rw [elements, List.map_append, List.map_map, List.map_map]
  rfl

theorem elementNumber_injective : Function.Injective fun x : ElementId => x.number.toNat := by
  rintro ⟨m⟩ ⟨n⟩ h
  exact congrArg ElementId.mk (UInt64.toNat_inj.mp h)

omit [Weight α] in
/-- A walk to the end of the edges has met both ends of each. -/
theorem anchored_of_edges (h : ∀ e ∈ g.edges.toList, g.edgeViolation e = none) : g.Anchored := by
  intro j e he
  by_contra hends
  have hruns : ∀ x y, ¬g.Runs e x y := fun x y hxy =>
    hends ⟨slot_lt_of_vertex? hxy.1, slot_lt_of_vertex? hxy.2⟩
  have hnone := h e (Array.mem_toList_iff.mpr (Array.mem_of_getElem? he))
  rw [edgeViolation_of_not_runs hruns] at hnone
  cases hnone

omit [Weight α] in
theorem exists_runs (hends : g.Anchored) : ∀ e ∈ g.edges, ∃ x y, g.Runs e x y := by
  intro e he
  obtain ⟨hs, hd⟩ := hends.ends_of_mem he
  obtain ⟨x, hx⟩ := Option.isSome_iff_exists.mp ((g.isSome_vertex?_iff e.source).mpr hs)
  obtain ⟨y, hy⟩ := Option.isSome_iff_exists.mp ((g.isSome_vertex?_iff e.dest).mpr hd)
  exact ⟨x, y, hx, hy⟩

omit [Weight α] in
theorem nodup_elements_of_firstRepeat (h : firstRepeat ∅ g.elementNumbers = none) :
    g.elements.Nodup := by
  rw [elementNumbers_eq, firstRepeat_eq_none_iff] at h
  exact h.1.of_map _

theorem breaks_of_firstRepeat {n : Nat} (h : firstRepeat ∅ g.elementNumbers = some n) :
    g.Breaks (.duplicateElement ⟨n.toUInt64⟩) := by
  rw [elementNumbers_eq] at h
  rcases firstRepeat_eq_some h with ⟨hseen, -⟩ | hduplicate
  · exact absurd hseen (by simp)
  · obtain ⟨x, -, rfl⟩ := List.mem_map.mp hduplicate.mem
    have hx : x.number.toNat.toUInt64 = x.number := UInt64.ofNat_toNat
    rw [hx]
    exact .duplicateElement (duplicate_of_map elementNumber_injective hduplicate)

theorem breaks_of_firstEdgeViolation (h : g.firstEdgeViolation ∅ g.edges.toList = some w) :
    g.Breaks w := by
  rcases firstEdgeViolation_eq_some h with ⟨e, he, hviolation⟩ | ⟨e, -, rfl, hagain⟩
  · exact breaks_of_edgeViolation (Array.mem_toList_iff.mp he) hviolation
  · rcases hagain with hseen | hduplicate
    · exact absurd hseen (by simp)
    · exact .parallelEdge hduplicate

variable (hg : g.Housed) (hends : g.Anchored)

include hg hends

/-- The passes go over the vertices with the sums of their own edges. -/
theorem outboundFinding_eq : g.outboundFinding = g.vertices.toList.findSome? fun x =>
    (g.totalsAt x.id).outboundViolation x g.settings.probabilityEpsilon := by
  rw [outboundFinding, hends.verticesWithTotals_eq hg, List.findSome?_map]
  rfl

theorem inboundFinding_eq : g.inboundFinding = g.vertices.toList.findSome? fun x =>
    (g.totalsAt x.id).inboundViolation x g.settings.probabilityEpsilon := by
  rw [inboundFinding, hends.verticesWithTotals_eq hg, List.findSome?_map]
  rfl

theorem breaks_of_outboundFinding (hsums : ∀ v, hitSum (g.edgesFrom v) < UInt64.size)
    (h : g.outboundFinding = some w) : g.Breaks w := by
  rw [outboundFinding_eq hg hends] at h
  obtain ⟨x, hx, hw⟩ := List.exists_of_findSome?_eq_some h
  obtain ⟨hquery, hreport⟩ := outboundViolation_eq_some_iff.mp hw
  have hx := Array.mem_toList_iff.mp hx
  have htotal := toNat_outboundHits_totalsAt (hsums x.id)
  split at hreport
  · obtain ⟨hdegree, hfar, rfl⟩ := hreport
    rw [outDegree_totalsAt_pos_iff] at hdegree
    rw [outboundProbability_totalsAt_eq] at hfar ⊢
    exact .probabilityNotConserved hx hquery hdegree hfar
  · next hhits =>
      subst hreport
      exact .hitsNotConserved hx hquery htotal hhits

theorem breaks_of_inboundFinding (h : g.inboundFinding = some w) : g.Breaks w := by
  rw [inboundFinding_eq hg hends] at h
  obtain ⟨x, hx, hw⟩ := List.exists_of_findSome?_eq_some h
  obtain ⟨hhits, hlow, rfl⟩ := inboundViolation_eq_some_iff.mp hw
  rw [inboundHits_totalsAt_pos_iff] at hhits
  rw [inboundProbability_totalsAt_eq] at hlow
  exact .inboundProbabilityZero (Array.mem_toList_iff.mp hx) hhits hlow

/-- The sums of all vertices are in order if both passes over them find nothing. -/
theorem findings_eq_none_iff :
    g.outboundFinding = none ∧ g.inboundFinding = none ↔
      ∀ x ∈ g.vertices,
        (x.state.isQuery = true → x.hits.total = (g.totalsAt x.id).outboundHits ∧
          (g.edgesFrom x.id ≠ [] →
            Weight.NearOne g.settings.probabilityEpsilon (flow (g.edgesFrom x.id)))) ∧
        (0 < hitSum (g.edgesInto x.id) →
          Weight.Above g.settings.probabilityEpsilon (flow (g.edgesInto x.id))) := by
  simp only [outboundFinding_eq hg hends, inboundFinding_eq hg hends,
    List.findSome?_eq_none_iff, Array.mem_toList_iff, outboundViolation_eq_none_iff,
    inboundViolation_eq_none_iff, outDegree_totalsAt_pos_iff, inboundHits_totalsAt_pos_iff,
    outboundProbability_totalsAt_eq, inboundProbability_totalsAt_eq]
  exact (forall₂_and).symm

end Findings

namespace Housed

variable {g : Graph α} (hg : g.Housed) (hsums : ∀ v, hitSum (g.edgesFrom v) < UInt64.size)

include hg hsums

/-- Whatever an audit reports is true of the graph. -/
theorem breaks_of_validate {w : Violation α} (h : g.validate = .error w) : g.Breaks w := by
  rw [validate_eq_error_iff, violation?_eq_or, Option.or_eq_some_iff] at h
  rcases h with hrepeat | ⟨-, h⟩
  · obtain ⟨n, hn, rfl⟩ := Option.map_eq_some_iff.mp hrepeat
    exact breaks_of_firstRepeat hn
  · rcases Option.or_eq_some_iff.mp h with hedge | ⟨hedges, h⟩
    · exact breaks_of_firstEdgeViolation hedge
    · -- the sums are taken after the walk over the edges
      have hends := anchored_of_edges ((firstEdgeViolation_eq_none_iff _ _).mp hedges).2.2
      rcases Option.or_eq_some_iff.mp h with hout | ⟨-, hin⟩
      · exact breaks_of_outboundFinding hg hends hsums hout
      · exact breaks_of_inboundFinding hg hends hin

/-- A graph that passes keeps all rules. -/
theorem lawful_of_validate (h : g.validate = .ok ()) : g.Lawful := by
  simp only [validate_eq_ok_iff, violation?_eq_or, Option.or_eq_none_iff,
    Option.map_eq_none_iff] at h
  obtain ⟨hrepeat, hedges, hout, hin⟩ := h
  obtain ⟨hpairs, -, hnone⟩ := (firstEdgeViolation_eq_none_iff _ _).mp hedges
  have hends := anchored_of_edges hnone
  have hedge : ∀ e ∈ g.edges, ∀ x y, g.Runs e x y → _ := fun e he x y =>
    rules_of_edgeViolation (hnone e (Array.mem_toList_iff.mpr he))
  have hruns := exists_runs hends
  have hvertex := (findings_eq_none_iff hg hends).mp ⟨hout, hin⟩
  refine
    { distinct := nodup_elements_of_firstRepeat hrepeat
      single := (nodup_pairNumbers_iff _).mp hpairs
      ends := hruns
      hits := fun e he x hx => ?_
      lineage := fun huse e he x y hxy => (hedge e he x y hxy).2.1 huse
      succession := fun e he x y hxy => (hedge e he x y hxy).2.2
      conserved := fun x hx hquery => ?_
      outflow := fun x hx hquery => ((hvertex x hx).1 hquery).2
      inflow := fun x hx => (hvertex x hx).2 }
  · obtain ⟨x', y, hxy⟩ := hruns e he
    have hsame : x' = x := Option.some.inj (hxy.1.symm.trans hx)
    exact hsame ▸ (hedge e he x' y hxy).1
  · rw [((hvertex x hx).1 hquery).1, toNat_outboundHits_totalsAt (hsums x.id)]

end Housed

/-- A reachable graph passes an audit if and only if it keeps all rules, and whatever an audit
reports is in the graph, breaks the rule that is named and has the numbers that are reported. -/
theorem validate_exact {p : Procedure} {s : ModelSettings α} {g : Graph α} (h : Reachable p s g)
    (hsums : ∀ v, hitSum (g.edgesFrom v) < UInt64.size) :
    (g.validate = .ok () ↔ g.Lawful) ∧ ∀ w, g.validate = .error w → g.Breaks w := by
  have hg := housed_of_reachable h
  refine ⟨⟨hg.lawful_of_validate hsums, fun hlawful => ?_⟩, fun w => hg.breaks_of_validate hsums⟩
  cases hvalidate : g.validate with
  | error w => exact absurd hlawful (hg.breaks_of_validate hsums hvalidate).not_lawful
  | ok u => rfl

omit [Weight α] in
theorem hitSum_edgesFrom_le (g : Graph α) (v : VertexId) :
    hitSum (g.edgesFrom v) ≤ hitSum g.edges.toList :=
  (List.filter_sublist.map _).sum_le_sum fun _ _ => Nat.zero_le _

def untouched : Graph Rat :=
  (fresh transfer .standard).performAll [.learn (transferTrace 1 false [10, 11]) .recorded,
    .recompute]

/-- The same with an edge that was made by hand and hit once. -/
def tampered : Graph Rat := untouched.performAll [.addEdge ⟨3⟩ ⟨2⟩, .hitEdge ⟨3⟩]

theorem validate_exact_tampered :
    untouched.Lawful ∧ tampered.validate = .error (.hitsNotConserved ⟨3⟩ 1 2) ∧
      tampered.Breaks (.hitsNotConserved ⟨3⟩ 1 2) ∧ ¬tampered.Lawful := by
  have hreach : Reachable transfer .standard untouched :=
    (Reachable.empty.step .seed).performAll _
  have hreach' : Reachable transfer .standard tampered := hreach.performAll _
  have hsums : ∀ v, hitSum (untouched.edgesFrom v) < UInt64.size := fun v =>
    (untouched.hitSum_edgesFrom_le v).trans_lt (by decide +kernel)
  have hsums' : ∀ v, hitSum (tampered.edgesFrom v) < UInt64.size := fun v =>
    (tampered.hitSum_edgesFrom_le v).trans_lt (by decide +kernel)
  obtain ⟨hpass, -⟩ := validate_exact hreach hsums
  obtain ⟨hpass', hreport⟩ := validate_exact hreach' hsums'
  have hfine : untouched.validate = .ok () := (validate_eq_ok_iff _).mpr (by decide +kernel)
  have herror : tampered.validate = .error (.hitsNotConserved ⟨3⟩ 1 2) :=
    (validate_eq_error_iff _ _).mpr (by decide +kernel)
  refine ⟨hpass.mp hfine, herror, hreport _ herror, fun hlawful => ?_⟩
  rw [hpass'.mpr hlawful] at herror
  cases herror

end Graph

end PathForecast
