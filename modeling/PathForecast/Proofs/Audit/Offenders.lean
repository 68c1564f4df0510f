import PathForecast.Proofs.Audit.Rules
import PathForecast.Proofs.Listing

/-!
# Offenders

An audit stops at the first violation, and another question lists every vertex whose sums break a
rule. The audit can add up its sums while it checks the edges (`walkEdges`) and gives up half-way if
an edge is broken; if it gets through, its sums are those that the list is made from. Main
statements: `validateInOneWalk_eq`, `Arranged.mem_invalidVertices_iff`, who is listed, and
`invalidVertices_of_reachable`, how the list and the audit agree.
-/

set_option autoImplicit false

namespace PathForecast

namespace Graph

variable {α : Type} [Weight α]

/-! ## The audit in one walk -/

/-- Checks the edges one by one and adds each that passes to the sums of its ends. -/
def walkEdges (g : Graph α) :
    Std.TreeSet Nat → Array (EdgeTotals α) → List (Edge α) →
      Except (Violation α) (Array (EdgeTotals α))
  | _, totals, [] => .ok totals
  | seen, totals, e :: es =>
      if seen.contains (pairNumber e) then .error (.parallelEdge e.source e.dest)
      else
        match g.edgeViolation e with
        | some w => .error w
        | none => g.walkEdges (seen.insert (pairNumber e)) (chargeEdge totals e) es

/-- The audit with checks and sums in one walk over the edges. -/
def validateInOneWalk (g : Graph α) : Except (Violation α) Unit :=
  let epsilon := g.settings.probabilityEpsilon
  match firstRepeat ∅ g.elementNumbers with
  | some n => .error (.duplicateElement ⟨n.toUInt64⟩)
  | none =>
      match g.walkEdges ∅ (Array.replicate g.vertices.size .zero) g.edges.toList with
      | .error w => .error w
      | .ok totals =>
          let audited := g.vertices.toList.map fun x => (x, totals[x.id.slot]?.getD .zero)
          match audited.findSome? (fun x => x.2.outboundViolation x.1 epsilon) with
          | some w => .error w
          | none =>
              match audited.findSome? (fun x => x.2.inboundViolation x.1 epsilon) with
              | some w => .error w
              | none => .ok ()

/-- The walk fails where the checks alone fail, and otherwise has the sums of all edges. -/
theorem walkEdges_eq (g : Graph α) (es : List (Edge α)) :
    ∀ (seen : Std.TreeSet Nat) (totals : Array (EdgeTotals α)),
      g.walkEdges seen totals es =
        match g.firstEdgeViolation seen es with
        | some w => .error w
        | none => .ok (es.foldl chargeEdge totals) := by
  induction es with
  | nil => exact fun _ _ => rfl
  | cons e es ih =>
      intro seen totals
      rw [walkEdges, firstEdgeViolation, List.foldl_cons]
      split
      · rfl
      · cases g.edgeViolation e with
        | some w => rfl
        | none => exact ih _ _

theorem validateInOneWalk_eq (g : Graph α) : g.validateInOneWalk = g.validate := by
  have hlisted : g.verticesWithTotals = g.vertices.toList.map fun x =>
      (x, (g.edges.toList.foldl chargeEdge
        (Array.replicate g.vertices.size .zero))[x.id.slot]?.getD .zero) := by
    rw [← edgeTotals_eq]
    rfl
  unfold validateInOneWalk
  rw [walkEdges_eq, validate, violation?_eq_or]
  cases firstRepeat ∅ g.elementNumbers with
  | some n => rfl
  | none =>
      cases g.firstEdgeViolation ∅ g.edges.toList with
      | some w => rfl
      | none =>
          rw [Option.map_none, Option.none_or, Option.none_or, outboundFinding, inboundFinding]
          dsimp only
          rw [← hlisted]
          generalize g.verticesWithTotals.findSome? (fun x =>
            x.2.outboundViolation x.1 g.settings.probabilityEpsilon) = out
          cases out with
          | some w => rfl
          | none =>
              generalize g.verticesWithTotals.findSome? (fun x =>
                x.2.inboundViolation x.1 g.settings.probabilityEpsilon) = ins
              cases ins <;> rfl

/-! ## Who is listed -/

def Unbalanced (g : Graph α) (v : VertexId) : Prop :=
  ∃ x, g.vertex? v = some x ∧
    ((g.totalsAt v).outboundViolation x g.settings.probabilityEpsilon).isSome = true

def Unfed (g : Graph α) (v : VertexId) : Prop :=
  ∃ x, g.vertex? v = some x ∧
    ((g.totalsAt v).inboundViolation x g.settings.probabilityEpsilon).isSome = true

def FirstUnbalanced (g : Graph α) (v : VertexId) : Prop :=
  v ∈ g.invalidVertices ∧ g.Unbalanced v ∧
    ∀ u ∈ g.invalidVertices, g.Unbalanced u → rank v ≤ rank u

theorem invalidVertices_sublist (g : Graph α) :
    g.invalidVertices.Sublist (g.vertices.toList.map (·.id)) := by
  have hids : g.vertices.toList.map (·.id) = g.verticesWithTotals.map (·.1.id) := by
    rw [verticesWithTotals, List.map_map]
    rfl
  rw [hids]
  exact List.filter_sublist.map _

/-- Nobody is listed if and only if neither pass over the sums finds anything. -/
theorem invalidVertices_eq_nil_iff (g : Graph α) :
    g.invalidVertices = [] ↔ g.outboundFinding = none ∧ g.inboundFinding = none := by
  unfold invalidVertices outboundFinding inboundFinding
  simp only [List.map_eq_nil_iff, List.filter_eq_nil_iff, List.findSome?_eq_none_iff,
    Bool.or_eq_true, not_or, Option.not_isSome_iff_eq_none]
  exact forall₂_and

theorem invalidVertices_of_validate {g : Graph α} (h : g.validate = .ok ()) :
    g.invalidVertices = [] := by
  simp only [validate_eq_ok_iff, violation?_eq_or, Option.or_eq_none_iff] at h
  exact (invalidVertices_eq_nil_iff g).mpr h.2.2

/-- A violation of a single edge, whose ids, pairs and ends are in order. -/
inductive OfEdge : Violation α → Prop
  | edgeExceedsSource (e : EdgeId) (edgeHits sourceHits : UInt64) :
      OfEdge (.edgeExceedsSource e edgeHits sourceHits)
  | pastPartitionLineage (e : EdgeId) (expected found : PartitionSet) :
      OfEdge (.pastPartitionLineage e expected found)
  | instanceSuccession (e : EdgeId) (sourceIndex destIndex : UInt32) :
      OfEdge (.instanceSuccession e sourceIndex destIndex)

namespace Arranged

variable {g : Graph α} (hg : g.Arranged)

include hg

/-- The vertices are listed whose outbound or inbound sums break a rule. -/
theorem mem_invalidVertices_iff (v : VertexId) :
    v ∈ g.invalidVertices ↔ g.Unbalanced v ∨ g.Unfed v := by
  have hlist := Anchored.verticesWithTotals_eq hg.ends hg.slot_lt
  unfold invalidVertices
  simp only [hlist, List.mem_map, List.mem_filter, Array.mem_toList_iff, Bool.or_eq_true]
  constructor
  · rintro ⟨_, ⟨⟨x, hx, rfl⟩, hbroken⟩, rfl⟩
    have hvertex := hg.vertex?_id hx
    exact hbroken.imp (fun h => ⟨x, hvertex, h⟩) fun h => ⟨x, hvertex, h⟩
  · intro hbroken
    have hlisted : ∃ x, g.vertex? v = some x ∧
        (((g.totalsAt v).outboundViolation x g.settings.probabilityEpsilon).isSome = true ∨
          ((g.totalsAt v).inboundViolation x g.settings.probabilityEpsilon).isSome = true) := by
      rcases hbroken with ⟨x, hx, h⟩ | ⟨x, hx, h⟩
      · exact ⟨x, hx, .inl h⟩
      · exact ⟨x, hx, .inr h⟩
    obtain ⟨x, hx, h⟩ := hlisted
    obtain rfl := hg.vertex_id_eq hx
    exact ⟨(x, g.totalsAt x.id), ⟨⟨x, Array.mem_of_getElem? hx, rfl⟩, h⟩, rfl⟩

theorem ascending_invalidVertices : Ascending g.invalidVertices :=
  hg.ascending_ids.sublist g.invalidVertices_sublist

/-- The pass over the outbound sums stops at the first vertex that breaks a rule. -/
theorem exists_of_outboundFinding {w : Violation α} (h : g.outboundFinding = some w) :
    ∃ x ∈ g.vertices,
      (g.totalsAt x.id).outboundViolation x g.settings.probabilityEpsilon = some w ∧
        ∀ u, g.Unbalanced u → rank x.id ≤ rank u := by
  rw [outboundFinding_eq hg.slot_lt hg.ends, List.findSome?_eq_some_iff] at h
  obtain ⟨before, x, after, hlist, hx, hbefore⟩ := h
  have hmem : ∀ y, y ∈ g.vertices ↔ y ∈ before ∨ y = x ∨ y ∈ after := by
    intro y
    rw [← Array.mem_toList_iff, hlist, List.mem_append, List.mem_cons]
  refine ⟨x, (hmem x).mpr (.inr (.inl rfl)), hx, ?_⟩
  rintro u ⟨y, hy, hbroken⟩
  obtain rfl := hg.vertex_id_eq hy
  have hascend := hg.ascending_ids
  rw [hlist, List.map_append, List.map_cons] at hascend
  rcases (hmem y).mp (Array.mem_of_getElem? hy) with hold | rfl | hnew
  · rw [hbefore y hold] at hbroken
    cases hbroken
  · exact Nat.le_refl _
  · have hlater := (List.pairwise_cons.mp (List.pairwise_append.mp hascend).2.1).1
    exact (hlater y.id (List.mem_map_of_mem hnew)).le

omit [Weight α] in
/-- An edge that is reported is reported for its hits or for the states that it joins. -/
theorem ofEdge_of_firstEdgeViolation {w : Violation α}
    (h : g.firstEdgeViolation ∅ g.edges.toList = some w) : OfEdge w := by
  rcases firstEdgeViolation_eq_some h with ⟨e, he, hviolation⟩ | ⟨e, -, -, hagain⟩
  · obtain ⟨x, y, hruns⟩ := exists_runs hg.ends e (Array.mem_toList_iff.mp he)
    rw [edgeViolation_eq_some_iff hruns] at hviolation
    split at hviolation
    · subst hviolation
      exact .edgeExceedsSource _ _ _
    · rcases hviolation with hlineage | ⟨-, hsuccession⟩
      · obtain ⟨-, -, -, -, rfl⟩ := lineage_eq_some_iff.mp hlineage
        exact .pastPartitionLineage _ _ _
      · obtain ⟨-, -, -, -, rfl⟩ := succession_eq_some_iff.mp hsuccession
        exact .instanceSuccession _ _ _
  · rcases hagain with hseen | hduplicate
    · exact absurd hseen (by simp)
    · exact absurd hg.nodup_pairs hduplicate.not_nodup

/-- In a graph whose bookkeepings agree, an audit stops at an edge, at the outbound sums of a vertex
or at its inbound sums. -/
theorem stages_of_validate {w : Violation α} (h : g.validate = .error w) :
    OfEdge w ∨ g.outboundFinding = some w ∨ g.inboundFinding = some w := by
  have hrepeat : firstRepeat ∅ g.elementNumbers = none :=
    (firstRepeat_eq_none_iff _ _).mpr ⟨hg.elements.nodup_iff.mpr List.nodup_range, by simp⟩
  rw [validate_eq_error_iff, violation?_eq_or, hrepeat, Option.map_none, Option.none_or,
    Option.or_eq_some_iff, Option.or_eq_some_iff] at h
  rcases h with hedge | ⟨-, hout | ⟨-, hin⟩⟩
  · exact .inl (hg.ofEdge_of_firstEdgeViolation hedge)
  · exact .inr (.inl hout)
  · exact .inr (.inr hin)

/-- An outbound violation that an audit reports is that of the first vertex which has one. -/
theorem firstUnbalanced_of_validate {w : Violation α} {v : VertexId} (h : g.validate = .error w)
    (hw : (∃ vertexHits edgeHits, w = .hitsNotConserved v vertexHits edgeHits) ∨
      ∃ total, w = .probabilityNotConserved v total) : g.FirstUnbalanced v := by
  rcases hg.stages_of_validate h with hedge | hout | hin
  · rcases hw with ⟨_, _, rfl⟩ | ⟨_, rfl⟩ <;> cases hedge
  · obtain ⟨x, hx, hviolation, hleast⟩ := hg.exists_of_outboundFinding hout
    have hv : v = x.id := by
      obtain ⟨-, hreport | ⟨hreport, -⟩⟩ := outboundViolation_cases hviolation
      · rcases hw with ⟨_, _, rfl⟩ | ⟨_, rfl⟩ <;> cases hreport
        rfl
      · rcases hw with ⟨_, _, rfl⟩ | ⟨_, rfl⟩ <;> cases hreport
        rfl
    subst hv
    have hbroken : g.Unbalanced x.id := by
      refine ⟨x, hg.vertex?_id hx, ?_⟩
      rw [hviolation]
      rfl
    exact ⟨(hg.mem_invalidVertices_iff _).mpr (.inl hbroken), hbroken, fun u _ => hleast u⟩
  · -- the inbound pass has a violation of its own kind
    obtain ⟨y, -, hy⟩ := List.exists_of_findSome?_eq_some hin
    rw [inboundViolation_cases hy] at hw
    rcases hw with ⟨_, _, hw⟩ | ⟨_, hw⟩ <;> cases hw

theorem mem_invalidVertices_of_inbound {v : VertexId}
    (h : g.validate = .error (.inboundProbabilityZero v)) : v ∈ g.invalidVertices := by
  rcases hg.stages_of_validate h with hedge | hout | hin
  · cases hedge
  · obtain ⟨y, -, hy⟩ := List.exists_of_findSome?_eq_some hout
    obtain ⟨-, hreport | ⟨hreport, -⟩⟩ := outboundViolation_cases hy <;> cases hreport
  · rw [inboundFinding_eq hg.slot_lt hg.ends] at hin
    obtain ⟨x, hx, hviolation⟩ := List.exists_of_findSome?_eq_some hin
    obtain rfl := Violation.inboundProbabilityZero.inj (inboundViolation_cases hviolation)
    refine (hg.mem_invalidVertices_iff _).mpr (.inr ⟨x, ?_, ?_⟩)
    · exact hg.vertex?_id (Array.mem_toList_iff.mp hx)
    · rw [hviolation]
      rfl

/-- With nobody listed, only edges are left to report. -/
theorem ofEdge_of_invalidVertices {w : Violation α} (hnil : g.invalidVertices = [])
    (h : g.validate = .error w) : OfEdge w := by
  obtain ⟨hout, hin⟩ := (invalidVertices_eq_nil_iff g).mp hnil
  rcases hg.stages_of_validate h with hedge | hreport | hreport
  · exact hedge
  · rw [hout] at hreport
    cases hreport
  · rw [hin] at hreport
    cases hreport

end Arranged

/-- The list ascends and holds the vertices whose sums break a rule, by the same sums that an audit
makes in its one walk over the edges. If the audit passes, the list is empty; a vertex that the
audit names is listed, the first of those with an outbound violation if it is named for one; and if
the list is empty, the audit can name only an edge. -/
theorem invalidVertices_of_reachable {p : Procedure} {s : ModelSettings α} {g : Graph α}
    (h : Reachable p s g) (hfit : g.Fits) :
    g.validateInOneWalk = g.validate ∧ Ascending g.invalidVertices ∧
      (∀ v, v ∈ g.invalidVertices ↔ g.Unbalanced v ∨ g.Unfed v) ∧
      (g.validate = .ok () → g.invalidVertices = []) ∧
      (∀ v vertexHits edgeHits,
        g.validate = .error (.hitsNotConserved v vertexHits edgeHits) → g.FirstUnbalanced v) ∧
      (∀ v total, g.validate = .error (.probabilityNotConserved v total) →
        g.FirstUnbalanced v) ∧
      (∀ v, g.validate = .error (.inboundProbabilityZero v) → v ∈ g.invalidVertices) ∧
      (g.invalidVertices = [] → ∀ w, g.validate = .error w → OfEdge w) := by
  have hg := arranged_of_reachable h hfit
  refine ⟨validateInOneWalk_eq g, hg.ascending_invalidVertices, hg.mem_invalidVertices_iff,
    invalidVertices_of_validate, fun v a b hw => ?_, fun v total hw => ?_,
    fun v => hg.mem_invalidVertices_of_inbound, fun hnil w => hg.ofEdge_of_invalidVertices hnil⟩
  · exact hg.firstUnbalanced_of_validate hw (.inl ⟨a, b, rfl⟩)
  · exact hg.firstUnbalanced_of_validate hw (.inr ⟨total, rfl⟩)

/-- The abort marker is listed first, for its inbound sums; the audit names the query vertex, which
is the first one with an outbound violation. -/
theorem invalidVertices_of_reachable_tampered :
    tampered.invalidVertices = [⟨2⟩, ⟨3⟩] ∧
      tampered.validateInOneWalk = .error (.hitsNotConserved ⟨3⟩ 1 2) ∧
      tampered.FirstUnbalanced ⟨3⟩ ∧ tampered.Unfed ⟨2⟩ ∧ ¬tampered.Unbalanced ⟨2⟩ := by
  have hreach : Reachable transfer .standard tampered :=
    ((Reachable.empty.step .seed).performAll _).performAll _
  have herror : tampered.validate = .error (.hitsNotConserved ⟨3⟩ 1 2) :=
    (validate_eq_error_iff _ _).mpr (by decide +kernel)
  have hlist : tampered.invalidVertices = [⟨2⟩, ⟨3⟩] := by decide +kernel
  obtain ⟨hwalk, -, hmem, -, hfirst, -⟩ :=
    invalidVertices_of_reachable hreach ⟨by decide +kernel, by decide +kernel⟩
  have hfirst := hfirst _ _ _ herror
  have hbalanced : ¬tampered.Unbalanced ⟨2⟩ := by
    intro hbroken
    have hle := hfirst.2.2 ⟨2⟩ (by rw [hlist]; decide) hbroken
    exact absurd hle (by decide)
  refine ⟨hlist, hwalk.trans herror, hfirst, ?_, hbalanced⟩
  exact ((hmem ⟨2⟩).mp (by rw [hlist]; decide)).resolve_left hbalanced

end Graph

end PathForecast
