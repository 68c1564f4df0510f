import PathForecast.Proofs.Audit.Lineage
import PathForecast.Proofs.PathSums
import PathForecast.Proofs.Traversal.Postorder

/-!
# Directed cycles

No transaction comes back to a vertex, but transactions that run the same statements in different
orders close cycles together. Where past partitions are part of an identity, what has been touched
only grows along an edge, so nothing new is touched on a cycle; and a cycle leaves every statement,
because the runs of one statement are counted up. An edge that the propagation drops lies on a
cycle. Main statement: `cycles_performAll`.
-/

set_option autoImplicit false

namespace PathForecast

open Traversal

namespace Graph

variable {α : Type}

/-- The first vertex leads to the next one along an edge, and so on to the last one, which leads
back to the first. -/
def IsCycle (g : Graph α) (v : VertexId) (vs : List VertexId) : Prop :=
  List.IsChain g.Joined (v :: vs ++ [v])

instance (g : Graph α) (v : VertexId) (vs : List VertexId) : Decidable (g.IsCycle v vs) :=
  inferInstanceAs (Decidable (List.IsChain (fun v w => (g.edgeBetween v w).isSome = true) _))

/-- Every edge between query vertices leads to a partition that has not been touched before. -/
def Spreads (g : Graph α) : Prop :=
  ∀ e ∈ g.edges, (g.stateOf e.source).isQuery = true → (g.stateOf e.dest).isQuery = true →
    (g.stateOf e.dest).partitions.isSubset (g.stateOf e.source).touched = false

instance (g : Graph α) : Decidable g.Spreads :=
  inferInstanceAs (Decidable (∀ e ∈ g.edges, _ → _ → _ = false))

variable {g : Graph α} {u v w : VertexId} {vs : List VertexId} {k l : VertexKey}

theorem IsCycle.pairwise (h : g.IsCycle v vs) :
    (v :: vs ++ [v]).Pairwise (Relation.TransGen g.Joined) :=
  List.isChain_iff_pairwise.mp (h.imp fun _ _ => .single)

/-- Every vertex of a cycle leads to the first one. -/
theorem IsCycle.transGen (h : g.IsCycle v vs) (hw : w ∈ v :: vs) :
    Relation.TransGen g.Joined w v :=
  (List.pairwise_append.mp h.pairwise).2.2 w hw v List.mem_cons_self

/-- The first vertex of a cycle leads to every other one. -/
theorem IsCycle.reaches (h : g.IsCycle v vs) (hw : w ∈ v :: vs) : g.Reaches v w := by
  rcases List.mem_cons.mp hw with rfl | hw
  · exact .refl
  · exact ((List.pairwise_cons.mp h.pairwise).1 w (List.mem_append_left _ hw)).to_reflTransGen

/-- An edge that runs back leads to a vertex from which its source can be reached. -/
theorem Arranged.reaches_of_runsBack (hg : g.Arranged) {e : Edge α} (he : e ∈ g.edges)
    (hback : g.RunsBack e) : g.Reaches e.dest e.source :=
  hg.reaches_of_leadsTo (Anchored.ends_of_mem hg.ends he).2
    (leadsTo_of_back hg.closed_adjacency hback)

/-- Without directed cycles no edge is dropped. -/
theorem Arranged.backEdges_eq_zero (hg : g.Arranged) (hacyclic : g.Acyclic) :
    (run g.adjacency).backEdges = 0 := by
  classical
  rw [Anchored.backEdges_eq_countP hg.ends, List.countP_eq_zero]
  intro e he hback
  have he : e ∈ g.edges := Array.mem_toList_iff.mp he
  have hjoined := hg.joined_of_mem (mem_edgesFrom.mpr ⟨he, rfl⟩)
  exact hacyclic _ (.head' hjoined (hg.reaches_of_runsBack he (of_decide_eq_true hback)))

theorem acyclic_of_layout {k : Graph α} (h : k.layout = g.layout) (hg : g.Acyclic) :
    k.Acyclic := by
  intro v hcycle
  refine hg v (Relation.TransGen.mono (fun v w hjoined => ?_) v v hcycle)
  rwa [Joined, edgeBetween_of_layout h] at hjoined

namespace Laid

variable (hg : g.Laid)

include hg

/-! ## What changes along an edge -/

/-- Only query vertices have edges on both sides. -/
theorem exists_key (hin : g.Joined u v) (hout : g.Joined v w) :
    ∃ k, g.state? v = some (.query k) := by
  obtain ⟨_, s, _, hs, hinto⟩ := hg.leads u v hin
  obtain ⟨s', _, hs', _, hfrom⟩ := hg.leads v w hout
  rw [hs, Option.some.injEq] at hs'
  subst hs'
  rcases hfrom.source_cases with rfl | ⟨k, rfl⟩
  · exact absurd rfl hinto.dest
  · exact ⟨k, hs⟩

theorem exists_key_of_transGen (h : Relation.TransGen g.Joined v v) :
    ∃ k, g.state? v = some (.query k) := by
  obtain ⟨w, hout, -⟩ := Relation.TransGen.head'_iff.mp h
  obtain ⟨u, -, hin⟩ := Relation.TransGen.tail'_iff.mp h
  exact hg.exists_key hin hout

theorem precedes (h : g.Joined v w) (hv : g.state? v = some (.query k))
    (hw : g.state? w = some (.query l)) :
    (VertexState.query k).Precedes g.settings.usePastPartitions (.query l) := by
  obtain ⟨s, d, hs, hd, hprecedes⟩ := hg.leads v w h
  rw [hv, Option.some.injEq] at hs
  rw [hw, Option.some.injEq] at hd
  rwa [hs, hd]

variable (huse : g.settings.usePastPartitions = true)

include huse

theorem past_eq (h : g.Joined v w) (hv : g.state? v = some (.query k))
    (hw : g.state? w = some (.query l)) : l.past = k.past ∪ k.partitions :=
  (hg.precedes h hv hw).past huse rfl

/-- What has been touched stays touched. -/
theorem mem_touched_of_reaches (h : g.Reaches v w) (hw : g.state? w = some (.query l)) :
    ∀ {k}, g.state? v = some (.query k) → ∀ p ∈ k.past ∪ k.partitions,
      p ∈ l.past ∪ l.partitions := by
  induction h using Relation.ReflTransGen.head_induction_on with
  | refl =>
      intro k hv
      rw [hw, Option.some.injEq, VertexState.query.injEq] at hv
      exact fun p hp => hv ▸ hp
  | @head v u hjoined hreaches ih =>
      intro k hv p hp
      -- the vertex in between is a query vertex too, because the path goes on or ends there
      have hu : ∃ m, g.state? u = some (.query m) := by
        rcases hreaches.cases_head with rfl | ⟨x, hout, -⟩
        · exact ⟨l, hw⟩
        · exact hg.exists_key hjoined hout
      obtain ⟨m, hm⟩ := hu
      refine ih hm p ((PartitionSet.mem_union ..).mpr (.inl ?_))
      rwa [hg.past_eq huse hjoined hv hm]

theorem touched_eq (hvw : g.Reaches v w) (hwv : g.Reaches w v)
    (hv : g.state? v = some (.query k)) (hw : g.state? w = some (.query l)) :
    k.past ∪ k.partitions = l.past ∪ l.partitions :=
  PartitionSet.ext fun p =>
    ⟨hg.mem_touched_of_reaches huse hvw hw hv p, hg.mem_touched_of_reaches huse hwv hv hw p⟩

/-! ## Around a cycle -/

/-- A vertex on a cycle touches nothing that has not been touched before. -/
theorem past_eq_of_transGen (h : Relation.TransGen g.Joined v v)
    (hv : g.state? v = some (.query k)) : k.past = k.past ∪ k.partitions := by
  obtain ⟨u, hreaches, hin⟩ := Relation.TransGen.tail'_iff.mp h
  obtain ⟨m, hm⟩ := hg.exists_key_of_transGen (.head' hin hreaches)
  calc k.past = m.past ∪ m.partitions := hg.past_eq huse hin hm hv
    _ = k.past ∪ k.partitions := hg.touched_eq huse (.single hin) hreaches hm hv

theorem exists_touched_of_isCycle (h : g.IsCycle v vs) :
    ∃ touched, ∀ w ∈ v :: vs, ∃ key, g.state? w = some (.query key) ∧
      key.past ∪ key.partitions = touched ∧ key.past = touched := by
  have hloop : ∀ w ∈ v :: vs, Relation.TransGen g.Joined w w := fun w hw =>
    (h.transGen hw).trans_left (h.reaches hw)
  obtain ⟨k, hv⟩ := hg.exists_key_of_transGen (hloop v List.mem_cons_self)
  refine ⟨k.past ∪ k.partitions, fun w hw => ?_⟩
  obtain ⟨l, hl⟩ := hg.exists_key_of_transGen (hloop w hw)
  have htouched := hg.touched_eq huse (h.transGen hw).to_reflTransGen (h.reaches hw) hl hv
  refine ⟨l, hl, htouched, ?_⟩
  calc l.past = l.past ∪ l.partitions := hg.past_eq_of_transGen huse (hloop w hw) hl
    _ = k.past ∪ k.partitions := htouched

/-- An edge that the propagation drops joins vertices with the same touched partitions. -/
theorem touched_eq_of_runsBack {e : Edge α} (he : e ∈ g.edges) (hback : g.RunsBack e) :
    ∃ k l, g.state? e.source = some (.query k) ∧ g.state? e.dest = some (.query l) ∧
      k.past ∪ k.partitions = l.past ∪ l.partitions := by
  have hjoined : g.Joined e.source e.dest :=
    hg.arranged.joined_of_mem (mem_edgesFrom.mpr ⟨he, rfl⟩)
  have hreaches := hg.arranged.reaches_of_runsBack he hback
  obtain ⟨k, hk⟩ := hg.exists_key_of_transGen (.head' hjoined hreaches)
  obtain ⟨l, hl⟩ := hg.exists_key_of_transGen (.tail' hreaches hjoined)
  exact ⟨k, l, hk, hl, hg.touched_eq huse (.single hjoined) hreaches hk hl⟩

theorem acyclic_of_spreads (hspreads : g.Spreads) : g.Acyclic := by
  intro v hcycle
  obtain ⟨w, hjoined, hreaches⟩ := Relation.TransGen.head'_iff.mp hcycle
  obtain ⟨k, hk⟩ := hg.exists_key_of_transGen hcycle
  obtain ⟨l, hl⟩ := hg.exists_key_of_transGen (.tail' hreaches hjoined)
  have hmem := hg.arranged.mem_dests_iff.mpr hjoined
  obtain ⟨e, he, rfl⟩ := List.mem_map.mp hmem
  obtain ⟨hedge, rfl⟩ := mem_edgesFrom.mp he
  have hnew := hspreads e hedge
  simp only [stateOf, hk, hl, Option.getD_some] at hnew
  refine Bool.eq_false_iff.mp (hnew rfl rfl) ((PartitionSet.isSubset_iff ..).mpr fun p hp => ?_)
  show p ∈ k.past ∪ k.partitions
  rw [hg.touched_eq huse (.single hjoined) hreaches hk hl]
  exact (PartitionSet.mem_union ..).mpr (.inr hp)

omit huse in
/-- Along edges within one statement the runs are counted up, so no cycle stays there. -/
theorem not_within_of_isCycle (h : g.IsCycle v vs) (statement : StatementId) :
    ¬∀ w ∈ v :: vs, ∃ key, g.state? w = some (.query key) ∧ key.statement = statement := by
  intro hwithin
  have hwithin : ∀ w ∈ v :: vs ++ [v], ∃ key, g.state? w = some (.query key) ∧
      key.statement = statement := by
    intro w hw
    rcases List.mem_append.mp hw with hw | hw
    · exact hwithin w hw
    · exact hwithin w (List.mem_singleton.mp hw ▸ List.mem_cons_self)
  have hindex : (v :: vs ++ [v]).IsChain
      fun u w => (g.stateOf u).index.toNat < (g.stateOf w).index.toNat := by
    refine h.imp_of_mem_imp fun u w hu hw hjoined => ?_
    obtain ⟨k, hk, hstatement⟩ := hwithin u hu
    obtain ⟨l, hl, hsame⟩ := hwithin w hw
    have hnext : l.index.toNat = k.index.toNat + 1 :=
      (hg.precedes hjoined hk hl).index rfl rfl (congrArg some (hstatement.trans hsame.symm))
    rw [stateOf, stateOf, hk, hl]
    exact hnext ▸ Nat.lt_succ_self _
  exact lt_irrefl _
    ((List.pairwise_append.mp (List.isChain_iff_pairwise.mp hindex)).2.2 v List.mem_cons_self v
      List.mem_cons_self)

end Laid

/-! ## Histories -/

variable [Weight α]

/-- At every point of a history, where past partitions are part of an identity: the vertices of a
directed cycle are query vertices with the same touched partitions, all of which have been touched
before each of them, and no cycle stays within one statement. So an edge that a recompute drops
joins vertices with the same touched partitions, and if every edge between query vertices leads to a
new partition there is no cycle, and nothing is dropped. -/
theorem cycles_performAll (p : Procedure) (s : ModelSettings α) (cs : List Change)
    (huse : s.usePastPartitions = true) (hcs : ∀ c ∈ cs, c.Observes)
    (hfit : ((fresh p s).performAll cs).Fits) :
    let g := (fresh p s).performAll cs
    let recomputed := g.closeWindow.deriveProbabilities
    (∀ v vs, g.IsCycle v vs →
      (∃ touched, ∀ w ∈ v :: vs, ∃ key, g.state? w = some (.query key) ∧
        key.past ∪ key.partitions = touched ∧ key.past = touched) ∧
      ∀ statement, ¬∀ w ∈ v :: vs, ∃ key, g.state? w = some (.query key) ∧
        key.statement = statement) ∧
    (∀ e ∈ recomputed.edges, recomputed.RunsBack e →
      ∃ k l, g.state? e.source = some (.query k) ∧ g.state? e.dest = some (.query l) ∧
        k.past ∪ k.partitions = l.past ∪ l.partitions) ∧
    (g.Spreads → g.Acyclic ∧ (run recomputed.adjacency).backEdges = 0) := by
  intro g recomputed
  have hg : g.Laid := laid_performAll cs (laid_fresh p s) hcs hfit
  have hsettings : g.settings.usePastPartitions = true := by rwa [settings_performAll]
  have hlayout : recomputed.layout = g.layout := by simp [recomputed]
  have hrecomputed : recomputed.Laid := hg.of_layout hlayout
  have huse' : recomputed.settings.usePastPartitions = true :=
    (congrArg (·.settings.usePastPartitions) hlayout).trans hsettings
  have hstate : ∀ {v s}, recomputed.state? v = some s → g.state? v = some s :=
    (Growth.retain hlayout.symm).state?
  refine ⟨fun v vs h => ⟨hg.exists_touched_of_isCycle hsettings h, hg.not_within_of_isCycle h⟩,
    fun e he hback => ?_, fun hspreads => ?_⟩
  · obtain ⟨k, l, hk, hl, htouched⟩ := hrecomputed.touched_eq_of_runsBack huse' he hback
    exact ⟨k, l, hstate hk, hstate hl, htouched⟩
  · have hacyclic := hg.acyclic_of_spreads hsettings hspreads
    exact ⟨hacyclic, hrecomputed.arranged.backEdges_eq_zero (acyclic_of_layout hlayout hacyclic)⟩

def crossing : List Change :=
  [.learn (transferTrace 1 false [12, 10, 11]) .recorded,
    .learn (transferTrace 2 true [12, 11, 10]) .recorded, .recompute]

/-- Transactions that go to a new partition with every query, in either order. -/
def roaming : List Change :=
  [.learn ⟨⟨1⟩, ⟨1⟩, 0, 9, false, some ⟨0⟩,
      [⟨⟨10⟩, 1, 2, none⟩, ⟨⟨11⟩, 3, 4, some (.singleton ⟨1⟩)⟩]⟩ .recorded,
    .learn ⟨⟨2⟩, ⟨1⟩, 0, 9, false, some ⟨0⟩,
      [⟨⟨11⟩, 1, 2, some (.singleton ⟨1⟩)⟩, ⟨⟨10⟩, 3, 4, none⟩]⟩ .recorded, .recompute]

theorem cycles_performAll_crossing :
    let g := (fresh transfer (.standard : ModelSettings Rat)).performAll crossing
    let recomputed := g.closeWindow.deriveProbabilities
    let h := (fresh transfer (.standard : ModelSettings Rat)).performAll roaming
    g.IsCycle ⟨4⟩ [⟨5⟩] ∧
      (∃ touched, ∀ w ∈ [(⟨4⟩ : VertexId), ⟨5⟩], ∃ key, g.state? w = some (.query key) ∧
        key.past ∪ key.partitions = touched ∧ key.past = touched) ∧
      (∃ e ∈ recomputed.edges, recomputed.RunsBack e ∧
        ∃ k l, g.state? e.source = some (.query k) ∧ g.state? e.dest = some (.query l) ∧
          k.past ∪ k.partitions = l.past ∪ l.partitions) ∧
      h.edges.size = 6 ∧ h.Acyclic := by
  intro g recomputed h
  have hobserves : (∀ c ∈ crossing, c.Observes) ∧ ∀ c ∈ roaming, c.Observes := by
    simp only [crossing, roaming, List.forall_mem_cons]
    exact ⟨⟨.learn _ _, .learn _ _, .recompute, nofun⟩, .learn _ _, .learn _ _, .recompute, nofun⟩
  have hfit : g.Fits := ⟨by decide +kernel, by decide +kernel⟩
  have hroom : h.Fits := ⟨by decide +kernel, by decide +kernel⟩
  obtain ⟨hcycles, hdropped, -⟩ :=
    cycles_performAll transfer .standard crossing rfl hobserves.1 hfit
  obtain ⟨-, -, hacyclic⟩ := cycles_performAll transfer .standard roaming rfl hobserves.2 hroom
  have hcycle : g.IsCycle ⟨4⟩ [⟨5⟩] := by decide +kernel
  have hone : (run recomputed.adjacency).backEdges = 1 := by decide +kernel
  refine ⟨hcycle, (hcycles _ _ hcycle).1, ?_, by decide +kernel, (hacyclic (by decide +kernel)).1⟩
  -- the edge that is counted runs back
  classical
  have hlaid : recomputed.Laid := (laid_performAll crossing (laid_fresh transfer .standard)
    hobserves.1 hfit).of_layout ((layout_deriveProbabilities _).trans (layout_closeWindow _))
  rw [Anchored.backEdges_eq_countP hlaid.arranged.ends] at hone
  obtain ⟨e, he, hback⟩ := List.countP_pos_iff.mp (hone ▸ Nat.one_pos)
  have he : e ∈ recomputed.edges := Array.mem_toList_iff.mp he
  exact ⟨e, he, of_decide_eq_true hback, hdropped e he (of_decide_eq_true hback)⟩

end Graph

end PathForecast
