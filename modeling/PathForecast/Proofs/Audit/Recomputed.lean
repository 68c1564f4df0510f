import Mathlib
import PathForecast.Proofs.Audit.Structure
import PathForecast.Proofs.Training

/-!
# Audit of a recomputed graph

A history of learning and recomputing that ends with a recompute leaves a graph in which an audit
finds nothing wrong with ids, ends, pairs, hits, lineage, succession or outbound sums. One rule is
left: a vertex with inbound traffic is reported if the probabilities of its inbound edges, each the
share of another source, do not add up to more than the tolerance. Main statements:
`Trained.validate_eq`, the audit reports the first vertex of that kind, and
`validate_recomputed_iff`, when there is none.
-/

set_option autoImplicit false

namespace PathForecast

open Ledger

namespace Graph

/-! ## Single edges -/

section Edges

variable {α : Type} {g : Graph α}

/-- States that follow each other have the partitions that the audit expects. -/
theorem lineage_eq_none (e : Edge α) {s d : VertexState}
    (h : s.Precedes g.settings.usePastPartitions d) : edgeViolation.lineage g e s d = none := by
  unfold edgeViolation.lineage
  split
  · next hquery =>
      obtain ⟨huse, hquery⟩ := Bool.and_eq_true_iff.mp hquery
      have hpast := h.past huse hquery
      split
      · next expected hexpected =>
          refine if_pos ?_
          cases s with
          | start =>
              cases hexpected
              rw [hpast]
              decide
          | query key =>
              cases hexpected
              exact hpast.symm
          | commit => cases hexpected
          | abort => cases hexpected
      · rfl
  · rfl

theorem succession_eq_none (e : Edge α) {usePast : Bool} {s d : VertexState}
    (h : s.Precedes usePast d) : edgeViolation.succession e s d = none := by
  refine if_neg fun hbroken => ?_
  simp only [Bool.and_eq_true, decide_eq_true_eq] at hbroken
  obtain ⟨⟨⟨hs, hd⟩, hsame⟩, hindex⟩ := hbroken
  exact hindex (h.index hs hd hsame).symm

theorem edgeViolation_eq_none {e : Edge α} {x y : Vertex α} (hx : g.vertex? e.source = some x)
    (hy : g.vertex? e.dest = some y) (hle : e.hits.total.toNat ≤ x.hits.total.toNat)
    (h : x.state.Precedes g.settings.usePastPartitions y.state) : g.edgeViolation e = none := by
  have hhits : ¬x.hits.total < e.hits.total := UInt64.not_lt.mpr (UInt64.le_iff_toNat_le.mpr hle)
  unfold edgeViolation
  simp only [hx, hy, if_neg hhits, lineage_eq_none e h, succession_eq_none e h]

/-- Edges of different pairs, none of which breaks a rule of its own. -/
theorem firstEdgeViolation_eq_none :
    ∀ {es : List (Edge α)} {seen : Std.TreeSet Nat},
      (es.map pairNumber).Nodup → (∀ e ∈ es, pairNumber e ∉ seen) →
      (∀ e ∈ es, g.edgeViolation e = none) → g.firstEdgeViolation seen es = none
  | [], _, _, _, _ => rfl
  | e :: es, seen, hnodup, hfresh, hnone => by
      obtain ⟨hnot, hnodup⟩ := List.nodup_cons.mp (List.map_cons ▸ hnodup)
      rw [firstEdgeViolation, if_neg (by simpa using hfresh e List.mem_cons_self),
        hnone e List.mem_cons_self]
      refine firstEdgeViolation_eq_none hnodup (fun f hf hins => ?_)
        fun f hf => hnone f (List.mem_cons_of_mem _ hf)
      rcases (mem_insert_nat seen _ _).mp hins with hpair | hseen
      · exact hnot (List.mem_map.mpr ⟨f, hf, hpair.symm⟩)
      · exact hfresh f (List.mem_cons_of_mem _ hf) hseen

end Edges

/-! ## Sums at one vertex -/

section Totals

variable {α : Type} [Weight α]

def tallyEdge (v : VertexId) (t : EdgeTotals α) (e : Edge α) : EdgeTotals α :=
  let t := if e.source = v then t.addOutbound e else t
  if e.dest = v then t.addInbound e else t

def totalsAt (g : Graph α) (v : VertexId) : EdgeTotals α :=
  g.edges.toList.foldl (tallyEdge v) .zero

def chargeEdge (totals : Array (EdgeTotals α)) (e : Edge α) : Array (EdgeTotals α) :=
  if e.source.slot < totals.size && e.dest.slot < totals.size then
    (totals.modify e.source.slot (·.addOutbound e)).modify e.dest.slot (·.addInbound e)
  else totals

theorem edgeTotals_eq (g : Graph α) :
    g.edgeTotals = g.edges.toList.foldl chargeEdge (Array.replicate g.vertices.size .zero) := by
  rw [edgeTotals, ← Array.foldl_toList]
  rfl

theorem size_chargeEdge (totals : Array (EdgeTotals α)) (e : Edge α) :
    (chargeEdge totals e).size = totals.size := by
  unfold chargeEdge
  split
  · rw [Array.size_modify, Array.size_modify]
  · rfl

theorem getElem?_chargeEdge {totals : Array (EdgeTotals α)} {e : Edge α}
    (hs : e.source.slot < totals.size) (hd : e.dest.slot < totals.size) (v : VertexId) :
    (chargeEdge totals e)[v.slot]? = totals[v.slot]?.map fun t => tallyEdge v t e := by
  rw [chargeEdge, if_pos (by simp [hs, hd]), Array.getElem?_modify, Array.getElem?_modify]
  simp only [VertexId.slot_inj, tallyEdge]
  cases totals[v.slot]? with
  | none => split <;> split <;> rfl
  | some t => split <;> split <;> rfl

theorem getElem?_foldl_chargeEdge (v : VertexId) (es : List (Edge α)) :
    ∀ {totals : Array (EdgeTotals α)},
      (∀ e ∈ es, e.source.slot < totals.size ∧ e.dest.slot < totals.size) →
      (es.foldl chargeEdge totals)[v.slot]? =
        totals[v.slot]?.map fun t => es.foldl (tallyEdge v) t := by
  induction es with
  | nil => exact fun {_} _ => Option.map_id'.symm
  | cons e es ih =>
      intro totals hends
      obtain ⟨hs, hd⟩ := hends e List.mem_cons_self
      rw [List.foldl_cons, ih, getElem?_chargeEdge hs hd, Option.map_map]
      · rfl
      · intro f hf
        rw [size_chargeEdge]
        exact hends f (List.mem_cons_of_mem _ hf)

/-- The array of sums holds those of each vertex in its slot. -/
theorem Anchored.getElem?_edgeTotals {g : Graph α} (hg : g.Anchored) {v : VertexId}
    (hv : v.slot < g.vertices.size) : g.edgeTotals[v.slot]? = some (g.totalsAt v) := by
  rw [edgeTotals_eq, getElem?_foldl_chargeEdge, Array.getElem?_replicate, if_pos hv]
  · rfl
  · intro e he
    rw [Array.size_replicate]
    exact hg.ends_of_mem (Array.mem_toList_iff.mp he)

/-- Every vertex is audited with the sums over its own edges. -/
theorem Anchored.verticesWithTotals_eq {g : Graph α} (hg : g.Anchored)
    (hids : ∀ x ∈ g.vertices, x.id.slot < g.vertices.size) :
    g.verticesWithTotals = g.vertices.toList.map fun x => (x, g.totalsAt x.id) := by
  refine List.map_congr_left fun x hx => Prod.ext rfl ?_
  show g.edgeTotals[x.id.slot]?.getD .zero = g.totalsAt x.id
  rw [hg.getElem?_edgeTotals (hids x (Array.mem_toList_iff.mp hx))]
  rfl

omit [Weight α] in
theorem Arranged.slot_lt {g : Graph α} (hg : g.Arranged) : ∀ x ∈ g.vertices,
    x.id.slot < g.vertices.size :=
  fun _ hx => slot_lt_of_vertex? (hg.vertex?_id hx)

theorem Arranged.mem_verticesWithTotals {g : Graph α} (hg : g.Arranged) {x : Vertex α}
    {t : EdgeTotals α} :
    (x, t) ∈ g.verticesWithTotals ↔ x ∈ g.vertices ∧ t = g.totalsAt x.id := by
  rw [Anchored.verticesWithTotals_eq hg.ends hg.slot_lt, List.mem_map]
  simp only [Array.mem_toList_iff, Prod.mk.injEq]
  constructor
  · rintro ⟨y, hy, rfl, rfl⟩
    exact ⟨hy, rfl⟩
  · rintro ⟨hx, rfl⟩
    exact ⟨x, hx, rfl, rfl⟩

def edgesInto (g : Graph α) (v : VertexId) : List (Edge α) :=
  g.edges.toList.filter fun e => e.dest = v

omit [Weight α] in
theorem mem_edgesInto {g : Graph α} {v : VertexId} {e : Edge α} :
    e ∈ g.edgesInto v ↔ e ∈ g.edges ∧ e.dest = v := by
  simp [edgesInto]

/-- What the edges on one side of a vertex add to a quantity that the others leave alone. -/
theorem foldl_sum_filter {τ β M : Type} [AddCommMonoid M] {R : τ → M → Prop} {step : τ → β → τ}
    {gain : β → M} {φ : β → Prop} [DecidablePred φ]
    (hadd : ∀ t b a, φ b → R t a → R (step t b) (a + gain b))
    (hkeep : ∀ t b a, ¬φ b → R t a → R (step t b) a) (l : List β) {t : τ} (h : R t 0) :
    R (l.foldl step t) ((l.filter φ).map gain).sum := by
  have hstep : ∀ t b a, R t a → R (step t b) (a + if φ b then gain b else 0) := by
    intro t b a ht
    split
    · next hb => exact hadd t b a hb ht
    · next hb =>
        rw [add_zero]
        exact hkeep t b a hb ht
  have hsum := foldl_sum hstep l h
  rw [zero_add, List.sum_map_ite] at hsum
  simpa using hsum

section Quantities

variable (g : Graph α) (v : VertexId) {M : Type} [AddCommMonoid M]
  {R : EdgeTotals α → M → Prop} {gain : Edge α → M} (hzero : R .zero 0)

include hzero

/-- A quantity to which outbound edges add their gain. -/
theorem totalsAt_outbound (hout : ∀ t a e, R t a → R (t.addOutbound e) (a + gain e))
    (hin : ∀ t a e, R t a → R (t.addInbound e) a) :
    R (g.totalsAt v) ((g.edgesFrom v).map gain).sum := by
  refine foldl_sum_filter (fun t e a he h => ?_) (fun t e a he h => ?_) _ hzero
  · rw [tallyEdge, if_pos he]
    split
    · exact hin _ _ e (hout t a e h)
    · exact hout t a e h
  · rw [tallyEdge, if_neg he]
    split
    · exact hin t a e h
    · exact h

/-- A quantity to which inbound edges add their gain. -/
theorem totalsAt_inbound (hin : ∀ t a e, R t a → R (t.addInbound e) (a + gain e))
    (hout : ∀ t a e, R t a → R (t.addOutbound e) a) :
    R (g.totalsAt v) ((g.edgesInto v).map gain).sum := by
  refine foldl_sum_filter (fun t e a he h => ?_) (fun t e a he h => ?_) _ hzero
  · rw [tallyEdge, if_pos he]
    split
    · exact hin _ a e (hout t a e h)
    · exact hin t a e h
  · rw [tallyEdge, if_neg he]
    split
    · exact hout t a e h
    · exact h

end Quantities

theorem toNat_satAdd_min {a : Nat} {c : UInt64} (h : c.toNat = min a (UInt64.size - 1))
    (d : UInt64) : (satAdd c d).toNat = min (a + d.toNat) (UInt64.size - 1) := by
  rw [toNat_satAdd, h]
  omega

variable (g : Graph α) (v : VertexId)

theorem outDegree_totalsAt : (g.totalsAt v).outDegree = (g.edgesFrom v).length := by
  have hsum : (g.totalsAt v).outDegree = ((g.edgesFrom v).map fun _ => 1).sum :=
    g.totalsAt_outbound v (R := fun t n => t.outDegree = n) rfl
      (fun _ _ _ h => congrArg (· + 1) h) fun _ _ _ h => h
  rw [hsum, List.map_const', List.sum_replicate, smul_eq_mul, mul_one]

theorem outboundHits_totalsAt :
    (g.totalsAt v).outboundHits.toNat =
      min ((g.edgesFrom v).map (·.hits.total.toNat)).sum (UInt64.size - 1) :=
  g.totalsAt_outbound v (R := fun t n => t.outboundHits.toNat = min n (UInt64.size - 1)) rfl
    (fun _ _ _ h => toNat_satAdd_min h _) fun _ _ _ h => h

theorem inboundHits_totalsAt :
    (g.totalsAt v).inboundHits.toNat =
      min ((g.edgesInto v).map (·.hits.total.toNat)).sum (UInt64.size - 1) :=
  g.totalsAt_inbound v (R := fun t n => t.inboundHits.toNat = min n (UInt64.size - 1)) rfl
    (fun _ _ _ h => toNat_satAdd_min h _) fun _ _ _ h => h

theorem outboundProbability_totalsAt (g : Graph Rat) (v : VertexId) :
    (g.totalsAt v).outboundProbability = ((g.edgesFrom v).map (·.probability)).sum :=
  g.totalsAt_outbound v (R := fun t a => t.outboundProbability = a) rfl
    (fun _ _ e h => congrArg (· + e.probability) h) fun _ _ _ h => h

theorem inboundProbability_totalsAt (g : Graph Rat) (v : VertexId) :
    (g.totalsAt v).inboundProbability = ((g.edgesInto v).map (·.probability)).sum :=
  g.totalsAt_inbound v (R := fun t a => t.inboundProbability = a) rfl
    (fun _ _ e h => congrArg (· + e.probability) h) fun _ _ _ h => h

end Totals

/-! ## The audit of a trained graph -/

/-- A vertex whose inbound edges, though there are some, have no more probability in all than the
tolerance. -/
structure Starved (g : Graph Rat) (v : VertexId) : Prop where
  entered : g.edgesInto v ≠ []
  inflow : ((g.edgesInto v).map (·.probability)).sum ≤ g.settings.probabilityEpsilon

namespace Trained

variable {r : Graph Rat} {es : List Event} (hr : r.Trained es)

include hr

theorem edgeViolation_eq_none {e : Edge Rat} (he : e ∈ r.edges) : r.edgeViolation e = none := by
  obtain ⟨s, d, hs, hd, hprecedes⟩ :=
    hr.leads_of_joined (hr.tallied.arranged.joined_of_mem (mem_edgesFrom.mpr ⟨he, rfl⟩))
  obtain ⟨x, hx, hle⟩ := hr.exists_source he
  obtain ⟨y, hy, rfl⟩ := Option.map_eq_some_iff.mp hd
  rw [state?_eq hx, Option.some.injEq] at hs
  subst hs
  exact Graph.edgeViolation_eq_none hx hy hle hprecedes

theorem firstEdgeViolation_eq_none : r.firstEdgeViolation ∅ r.edges.toList = none :=
  Graph.firstEdgeViolation_eq_none hr.tallied.arranged.nodup_pairNumbers (by simp) fun _ he =>
    hr.edgeViolation_eq_none (Array.mem_toList_iff.mp he)

/-- No query vertex breaks the rules about its outbound edges. -/
theorem outboundViolation_eq_none {v : VertexId} {x : Vertex Rat} (hx : r.vertex? v = some x)
    {epsilon : Rat} (hepsilon : 0 ≤ epsilon) :
    (r.totalsAt v).outboundViolation x epsilon = none := by
  unfold EdgeTotals.outboundViolation
  split
  · rfl
  · next hquery =>
      obtain ⟨key, hkey⟩ := x.state.isQuery_iff.mp (by simpa using hquery)
      have hterminal := hr.tallied.marked.ne_terminal hr.tallied.seeded (state?_eq hx)
        (by rw [hkey]; rfl)
      have hflow : ((r.edgesFrom v).map (·.hits.total.toNat)).sum = x.hits.total.toNat := by
        rw [hr.total_vertex hx, ← hr.kept]
        exact hr.tallied.outbound_eq hr.bound hterminal
      have hhits : x.hits.total = (r.totalsAt v).outboundHits := by
        have hlt : x.hits.total.toNat < UInt64.size := x.hits.total.toNat_lt
        rw [← UInt64.toNat_inj, outboundHits_totalsAt, hflow]
        exact (min_eq_left (Nat.le_sub_one_of_lt hlt)).symm
      rw [if_neg (not_not.mpr hhits)]
      -- the probabilities of the edges add up to one, if there are any
      refine if_neg fun hbroken => ?_
      obtain ⟨hdegree, hfar⟩ := Bool.and_eq_true_iff.mp hbroken
      have hne : r.edgesFrom v ≠ [] := by
        rw [decide_eq_true_eq, outDegree_totalsAt] at hdegree
        exact List.ne_nil_of_length_pos hdegree
      rw [outboundProbability_totalsAt, hr.sum_probability hne, sub_self] at hfar
      exact absurd (of_decide_eq_true hfar : epsilon < 0) (not_lt.mpr hepsilon)

theorem inboundHits_pos_iff (v : VertexId) :
    0 < (r.totalsAt v).inboundHits ↔ r.edgesInto v ≠ [] := by
  rw [UInt64.lt_iff_toNat_lt, inboundHits_totalsAt]
  constructor
  · rintro hpos hnil
    rw [hnil] at hpos
    exact absurd hpos (by decide)
  · intro hne
    obtain ⟨e, he⟩ := List.exists_mem_of_ne_nil _ hne
    have hpos := hr.total_edge_pos (mem_edgesInto.mp he).1
    have hle := List.single_le_sum (fun _ _ => Nat.zero_le _) _
      (List.mem_map_of_mem (f := fun e : Edge Rat => e.hits.total.toNat) he)
    have hsize : (0 : UInt64).toNat < UInt64.size - 1 := by decide
    exact lt_min (hpos.trans_le hle) hsize

/-- The rule about inbound edges reports the starved vertices. -/
theorem inboundViolation_eq_some_iff {v : VertexId} {x : Vertex Rat}
    (hx : r.vertex? v = some x) {w : Violation Rat} :
    (r.totalsAt v).inboundViolation x r.settings.probabilityEpsilon = some w ↔
      r.Starved v ∧ w = .inboundProbabilityZero v := by
  have hid : x.id = v := by
    rw [← VertexId.slot_inj]
    exact hr.tallied.arranged.vertexSlot v.slot x hx
  unfold EdgeTotals.inboundViolation
  rw [inboundProbability_totalsAt, hid]
  constructor
  · intro h
    split at h
    · next hstarved =>
        obtain ⟨hpos, hle⟩ := Bool.and_eq_true_iff.mp hstarved
        refine ⟨⟨(hr.inboundHits_pos_iff v).mp (of_decide_eq_true hpos), of_decide_eq_true hle⟩, ?_⟩
        exact (Option.some.inj h).symm
    · cases h
  · rintro ⟨hstarved, rfl⟩
    refine if_pos (Bool.and_eq_true_iff.mpr ⟨?_, decide_eq_true hstarved.inflow⟩)
    exact decide_eq_true ((hr.inboundHits_pos_iff v).mpr hstarved.entered)

/-- Of all rules, only the last one is left to break. -/
theorem violation?_eq (hepsilon : 0 ≤ r.settings.probabilityEpsilon) :
    r.violation? = r.verticesWithTotals.findSome? fun x =>
      x.2.inboundViolation x.1 r.settings.probabilityEpsilon := by
  have hg := hr.tallied.arranged
  have hrepeat : firstRepeat ∅ r.elementNumbers = none :=
    (firstRepeat_eq_none_iff _ _).mpr ⟨hg.elements.nodup_iff.mpr List.nodup_range, by simp⟩
  have houtbound : r.verticesWithTotals.findSome? (fun x =>
      x.2.outboundViolation x.1 r.settings.probabilityEpsilon) = none := by
    rw [List.findSome?_eq_none_iff]
    rintro ⟨x, t⟩ hmem
    obtain ⟨hx, rfl⟩ := hg.mem_verticesWithTotals.mp hmem
    exact hr.outboundViolation_eq_none (hg.vertex?_id hx) hepsilon
  unfold violation?
  simp only [hrepeat, hr.firstEdgeViolation_eq_none, houtbound]

theorem starved_of_validate (hepsilon : 0 ≤ r.settings.probabilityEpsilon) {w : Violation Rat}
    (h : r.validate = .error w) : ∃ v, r.Starved v ∧ w = .inboundProbabilityZero v := by
  unfold validate at h
  rw [hr.violation?_eq hepsilon] at h
  split at h
  · next hviolation =>
      cases h
      obtain ⟨⟨x, t⟩, hmem, hx⟩ := List.exists_of_findSome?_eq_some hviolation
      obtain ⟨hx', rfl⟩ := hr.tallied.arranged.mem_verticesWithTotals.mp hmem
      exact ⟨_, (hr.inboundViolation_eq_some_iff (hr.tallied.arranged.vertex?_id hx')).mp hx⟩
  · cases h

/-- An audit passes if no vertex is starved. -/
theorem validate_eq_ok_iff (hepsilon : 0 ≤ r.settings.probabilityEpsilon) :
    r.validate = .ok () ↔ ∀ v, ¬r.Starved v := by
  constructor
  · intro h v hstarved
    -- a starved vertex exists, so the audit comes across it
    obtain ⟨e, he⟩ := List.exists_mem_of_ne_nil _ hstarved.entered
    obtain ⟨hmem, rfl⟩ := mem_edgesInto.mp he
    obtain ⟨j, hj⟩ := Array.mem_iff_getElem?.mp hmem
    obtain ⟨x, hx⟩ := Option.isSome_iff_exists.mp
      ((r.isSome_vertex?_iff e.dest).mpr (hr.tallied.arranged.ends j e hj).2)
    have hid : x.id = e.dest := by
      rw [← VertexId.slot_inj]
      exact hr.tallied.arranged.vertexSlot _ x hx
    have hlisted : (x, r.totalsAt e.dest) ∈ r.verticesWithTotals :=
      hr.tallied.arranged.mem_verticesWithTotals.mpr ⟨Array.mem_of_getElem? hx, by rw [hid]⟩
    have hreport := (hr.inboundViolation_eq_some_iff hx).mpr ⟨hstarved, rfl⟩
    unfold validate at h
    rw [hr.violation?_eq hepsilon] at h
    split at h
    · cases h
    · next hnone =>
        have hpass := List.findSome?_eq_none_iff.mp hnone _ hlisted
        rw [hreport] at hpass
        cases hpass
  · intro h
    cases hvalidate : r.validate with
    | error w =>
        obtain ⟨v, hstarved, -⟩ := hr.starved_of_validate hepsilon hvalidate
        exact absurd hstarved (h v)
    | ok u => rfl

/-- An edge is taken by at least one of all learned transactions. -/
theorem one_le_probability_mul {e : Edge Rat} (he : e ∈ r.edges) :
    1 ≤ e.probability * (learned es).length := by
  obtain ⟨x, hx, hle⟩ := hr.exists_source he
  have hpos := hr.total_edge_pos he
  have hlength : x.hits.total.toNat ≤ (learned es).length := by
    rw [hr.total_vertex hx]
    exact List.countP_le_length
  have hsource : (0 : Rat) < x.hits.total.toNat := by exact_mod_cast hpos.trans_le hle
  rw [hr.probability_eq he hx, div_mul_eq_mul_div, le_div_iff₀ hsource, one_mul]
  calc (x.hits.total.toNat : Rat)
      ≤ (learned es).length := by exact_mod_cast hlength
    _ = 1 * (learned es).length := (one_mul _).symm
    _ ≤ e.hits.total.toNat * (learned es).length := by
        refine mul_le_mul_of_nonneg_right ?_ (Nat.cast_nonneg _)
        exact_mod_cast hpos

/-- A tolerance below the share of a single transaction starves no vertex. -/
theorem not_starved (hfew : r.settings.probabilityEpsilon * (learned es).length < 1)
    (v : VertexId) : ¬r.Starved v := by
  intro hstarved
  obtain ⟨e, he⟩ := List.exists_mem_of_ne_nil _ hstarved.entered
  have hnonneg : ∀ a ∈ (r.edgesInto v).map (·.probability), 0 ≤ a := by
    intro a ha
    obtain ⟨f, hf, rfl⟩ := List.mem_map.mp ha
    exact (hr.probability_pos (mem_edgesInto.mp hf).1).le
  have hsingle : e.probability ≤ r.settings.probabilityEpsilon :=
    (List.single_le_sum hnonneg _ (List.mem_map_of_mem he)).trans hstarved.inflow
  have hone := hr.one_le_probability_mul (mem_edgesInto.mp he).1
  have hle := mul_le_mul_of_nonneg_right hsingle (Nat.cast_nonneg (α := Rat) (learned es).length)
  linarith

end Trained

/-- After any history of learning and recomputing that ends with a recompute, the only thing that
an audit can report is a starved vertex, and it passes if there is none. There is none as long as
the tolerance is less than the share of one transaction in all that were learned. -/
theorem validate_recomputed (p : Procedure) (s : ModelSettings Rat)
    (hepsilon : 0 ≤ s.probabilityEpsilon) (cs : List Change) (hcs : ∀ c ∈ cs, c.Trains)
    (hbound : (learned ((fresh p s).ledger cs)).length < UInt64.size)
    (hfit : ((fresh p s).performAll cs).Fits) :
    let r := (fresh p s).performAll (cs ++ [Change.recompute])
    (∀ w, r.validate = .error w → ∃ v, r.Starved v ∧ w = .inboundProbabilityZero v) ∧
      (r.validate = .ok () ↔ ∀ v, ¬r.Starved v) ∧
      (s.probabilityEpsilon * (learned ((fresh p s).ledger cs)).length < 1 →
        r.validate = .ok ()) := by
  intro r
  have hr := trained_performAll p s cs hcs hbound hfit
  have hsettings : r.settings = s := settings_performAll p s _
  have hnonneg : 0 ≤ r.settings.probabilityEpsilon := by rw [hsettings]; exact hepsilon
  refine ⟨fun w => hr.starved_of_validate hnonneg, hr.validate_eq_ok_iff hnonneg, fun hfew => ?_⟩
  refine (hr.validate_eq_ok_iff hnonneg).mpr (hr.not_starved ?_)
  rw [learned_ledger_recompute, settings_performAll]
  exact hfew

def forked : List (TransactionTrace × Estimator) :=
  [(transferTrace 1 false [10], .recorded), (transferTrace 2 false [11], .recorded),
    (transferTrace 3 false [12], .recorded)]

def tolerant : ModelSettings Rat :=
  { (.standard : ModelSettings Rat) with probabilityEpsilon := 2 / 5 }

theorem validate_ne_ok_of_not_isValid {α : Type} [Weight α] {g : Graph α}
    (h : g.isValid = false) : g.validate ≠ .ok () := by
  intro hvalidate
  unfold validate at hvalidate
  unfold isValid at h
  split at hvalidate
  · cases hvalidate
  · next hnone =>
      rw [hnone] at h
      cases h

/-- Each of the three statements is the first one of every third transaction, which is below the
tolerance: the audit of the recomputed graph reports their vertices. -/
theorem validate_forked :
    0 < tolerant.probabilityEpsilon ∧ tolerant.probabilityEpsilon < 1 / 2 ∧
      (learned ((fresh transfer tolerant).ledger (lessons forked))).length = forked.length ∧
      let r := (fresh transfer tolerant).performAll (lessons forked ++ [Change.recompute])
      r.validate ≠ .ok () ∧ r.invalidVertices = [⟨3⟩, ⟨4⟩, ⟨5⟩] := by
  refine ⟨by decide +kernel, by decide +kernel, by decide +kernel, ?_, by decide +kernel⟩
  exact validate_ne_ok_of_not_isValid (by decide +kernel)

/-- The first two of them have half of the transactions each. -/
theorem validate_recomputed_forked :
    let r := (fresh transfer tolerant).performAll (lessons (forked.take 2) ++ [Change.recompute])
    r.validate = .ok () ∧ r.transactionCount = 2 := by
  have hlength :
      (learned ((fresh transfer tolerant).ledger (lessons (forked.take 2)))).length = 2 := by
    decide +kernel
  have hfit : ((fresh transfer tolerant).performAll (lessons (forked.take 2))).Fits :=
    ⟨by decide +kernel, by decide +kernel⟩
  obtain ⟨-, -, hfew⟩ := validate_recomputed transfer tolerant (by decide +kernel)
    (lessons (forked.take 2)) (trains_lessons _) (by rw [hlength]; decide) hfit
  exact ⟨hfew (by rw [hlength]; decide +kernel), by decide +kernel⟩

end Graph

end PathForecast
