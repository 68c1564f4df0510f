import Mathlib
import PathForecast.Proofs.Passages

/-!
# Schedules

Transactions that learn into one graph may take their turns in any order. At every moment the graph
has recorded some passages, and together with those that are still to be made they are the passages
of all transactions. Main statements: `Sound.turn`, a turn keeps that, and `recorded_run`, what is
recorded once all transactions have finished does not depend on the schedule.
-/

set_option autoImplicit false

namespace PathForecast

namespace Graph

variable {α : Type} [Weight α]

def remaining (g : Graph α) (s : Learner) : List Passage :=
  passages g.settings.usePastPartitions s.trace.aborted (g.spot s.previous) s.pending

omit [Weight α] in
theorem remaining_eq {g : Graph α} {t : TransactionTrace} {previous : VertexId} {x : VertexState}
    (hx : g.place? previous = some x) (pending : List Step) :
    g.remaining ⟨t, previous, pending⟩ =
      passages g.settings.usePastPartitions t.aborted x pending := by
  rw [remaining, spot_eq hx]

/-- A transaction can take its next steps: it is at a vertex, and its statements are declared. -/
structure Able (g : Graph α) (s : Learner) : Prop where
  placed : ∃ x, g.place? s.previous = some x
  declared : ∀ visit, Step.follow visit ∈ s.pending →
    g.procedure.declares visit.key.statement = true

section Growth

variable {g k : Graph α}

theorem Growth.remaining (h : Growth g k) {s : Learner} (hs : g.Able s) :
    k.remaining s = g.remaining s := by
  obtain ⟨x, hx⟩ := hs.placed
  rw [remaining_eq hx, remaining_eq (h.place? hx), h.settings_eq]

theorem Growth.able (h : Growth g k) {s : Learner} (hs : g.Able s) : k.Able s := by
  obtain ⟨x, hx⟩ := hs.placed
  refine ⟨⟨x, h.place? hx⟩, fun visit hvisit => ?_⟩
  rw [h.procedure_eq]
  exact hs.declared visit hvisit

/-- A transaction that has taken its next step can take those after it. -/
theorem Able.next (h : Growth g k) {t : TransactionTrace} {previous v : VertexId} {next : Step}
    {rest : List Step} (hs : g.Able ⟨t, previous, next :: rest⟩) {x : VertexState}
    (hx : k.place? v = some x) : k.Able ⟨t, v, rest⟩ := by
  refine ⟨⟨x, hx⟩, fun visit hvisit => ?_⟩
  rw [h.procedure_eq]
  exact hs.declared visit (List.mem_cons_of_mem _ hvisit)

end Growth

end Graph

/-! ## Runs -/

namespace Shared

open PathForecast.Graph

variable {α : Type} [Weight α]

/-- A run under way that has recorded what its transactions have done, of all that they do. -/
structure Sound (w : Shared α) (total : List Passage) : Prop where
  coherent : w.graph.Coherent
  fits : w.graph.Fits
  able : ∀ s ∈ w.learners, w.graph.Able s
  recorded : ∃ J, w.graph.Recorded J ∧ (J ++ w.learners.flatMap w.graph.remaining).Perm total

namespace Sound

variable {w : Shared α} {total : List Passage} (hw : w.Sound total) {i : Nat}

include hw

section Step

variable {s : Learner} (hs : w.learners[i]? = some s)

include hs

/-- One transaction makes its next passage, and the others stay as they are. -/
theorem step (q : Passage) {k : Graph α} {s' : Learner} (hgrow : Growth w.graph k)
    (hfit : k.Fits) (hable : k.Able s') (hremaining : w.graph.remaining s = q :: k.remaining s')
    (hrecorded : ∀ J, w.graph.Recorded J → k.Recorded (J ++ [q])) :
    (⟨k, w.learners.set i s'⟩ : Shared α).Sound total := by
  obtain ⟨hi, hget⟩ := List.getElem?_eq_some_iff.mp hs
  have hsplit : w.learners = w.learners.take i ++ s :: w.learners.drop (i + 1) := by
    rw [← hget, List.cons_getElem_drop_succ, List.take_append_drop]
  have hset : w.learners.set i s' = w.learners.take i ++ s' :: w.learners.drop (i + 1) := by
    rw [List.set_eq_take_append_cons_drop, if_pos hi]
  refine ⟨hgrow.coherent hw.coherent hfit, hfit, fun u hu => ?_, ?_⟩
  · rcases List.mem_or_eq_of_mem_set hu with hu | rfl
    · exact hgrow.able (hw.able u hu)
    · exact hable
  · obtain ⟨J, hJ, hperm⟩ := hw.recorded
    have hothers : ∀ us ⊆ w.learners, us.flatMap k.remaining = us.flatMap w.graph.remaining :=
      fun us hus => List.flatMap_congr fun u hu => hgrow.remaining (hw.able u (hus hu))
    refine ⟨J ++ [q], hrecorded J hJ, List.Perm.trans ?_ hperm⟩
    show (J ++ [q] ++ (w.learners.set i s').flatMap k.remaining).Perm _
    rw [hset, List.flatMap_append, List.flatMap_cons, hothers _ (List.take_subset i _),
      hothers _ (List.drop_subset (i + 1) _)]
    conv_rhs => rw [hsplit, List.flatMap_append, List.flatMap_cons, hremaining]
    -- the passage moves from the head of what remains to the end of what is done
    simp only [List.append_assoc, List.cons_append, List.nil_append]
    exact List.perm_middle.symm.append_left J

theorem next_mem {q : Passage} {rest : List Passage}
    (hremaining : w.graph.remaining s = q :: rest) : q ∈ total := by
  obtain ⟨J, -, hperm⟩ := hw.recorded
  refine hperm.subset (List.mem_append_right _ (List.mem_flatMap.mpr ?_))
  refine ⟨s, List.mem_of_getElem? hs, ?_⟩
  rw [hremaining]
  exact List.mem_cons_self

end Step

theorem exists_recorded : ∃ J, w.graph.Recorded J ∧ J ⊆ total := by
  obtain ⟨J, hJ, hperm⟩ := hw.recorded
  exact ⟨J, hJ, fun _ hq => hperm.subset (List.mem_append_left _ hq)⟩

variable {t : TransactionTrace} {previous : VertexId} {rest : List Step}

theorem enter (hs : w.learners[i]? = some ⟨t, previous, .enter :: rest⟩) :
    (⟨w.graph.enter t.sampleKey t.elapsed, w.learners.set i ⟨t, previous, rest⟩⟩ :
      Shared α).Sound total := by
  have hable := hw.able _ (List.mem_of_getElem? hs)
  have hlayout := layout_enter w.graph t.sampleKey t.elapsed
  have hgrow : Growth w.graph (w.graph.enter t.sampleKey t.elapsed) := .retain hlayout
  obtain ⟨x, hx⟩ : ∃ x, w.graph.place? previous = some x := hable.placed
  refine hw.step hs .entry hgrow ?_ (hable.next hgrow (hgrow.place? hx)) ?_
    fun J hJ => hJ.enter hw.coherent _ _
  · exact hw.fits.of_le (size_vertices_of_layout hlayout).le (size_edges_of_layout hlayout).le
  · rw [remaining_eq hx, remaining_eq (hgrow.place? hx)]
    rfl

theorem count (hs : w.learners[i]? = some ⟨t, previous, .count :: rest⟩) :
    (⟨w.graph.countTransaction, w.learners.set i ⟨t, previous, rest⟩⟩ : Shared α).Sound total := by
  have hable := hw.able _ (List.mem_of_getElem? hs)
  have hgrow : Growth w.graph w.graph.countTransaction := .retain rfl
  obtain ⟨x, hx⟩ : ∃ x, w.graph.place? previous = some x := hable.placed
  refine hw.step hs .counted hgrow ⟨hw.fits.vertices, hw.fits.edges⟩
    (hable.next hgrow (hgrow.place? hx)) ?_ fun J hJ => hJ.count
  rw [remaining_eq hx, remaining_eq (hgrow.place? hx)]
  rfl

variable (hroom : Roomy total)

include hroom

theorem leave (hs : w.learners[i]? = some ⟨t, previous, .leave :: rest⟩) :
    (⟨w.graph.leave t.sampleKey previous t.aborted, w.learners.set i ⟨t, previous, rest⟩⟩ :
      Shared α).Sound total := by
  have hg := hw.coherent
  have hable := hw.able _ (List.mem_of_getElem? hs)
  obtain ⟨x, hx⟩ : ∃ x, w.graph.place? previous = some x := hable.placed
  obtain ⟨J₀, hJ₀, hsub⟩ := hw.exists_recorded
  have hend := place?_terminal hg t.aborted
  have hpair : (x, .ending t.aborted) ∈ crossings total :=
    List.mem_filterMap.mpr ⟨_, hw.next_mem hs (remaining_eq hx _), rfl⟩
  have hgrow : Growth w.graph (w.graph.leave t.sampleKey previous t.aborted) :=
    growth_traverseEdge t.sampleKey 0 (slot_lt_of_place? hx) (slot_lt_of_place? hend)
  have hfit : (w.graph.leave t.sampleKey previous t.aborted).Fits :=
    hg.fits_traverseEdge hw.fits t.sampleKey (hJ₀.links_subset hg hsub) hx hend hpair hroom.edges 0
  have hmove : Move w.graph (w.graph.leave t.sampleKey previous t.aborted) previous
      (terminal t.aborted) :=
    move_traverseEdge hg.arranged t.sampleKey 0 (slot_lt_of_place? hx) (slot_lt_of_place? hend) hfit
  have hplace : ∀ v, (w.graph.leave t.sampleKey previous t.aborted).place? v =
      w.graph.place? v := by
    intro v
    rw [place?, place?, hgrow.settings_eq]
    exact congrArg _ (state?_traverseEdge _ _ _ _ _ v)
  refine hw.step hs (.leg x (.ending t.aborted)) hgrow hfit
    (hable.next hgrow (hgrow.place? hx)) ?_ fun J hJ => ?_
  · rw [remaining_eq hx, remaining_eq (hgrow.place? hx), hgrow.settings_eq]
    rfl
  · exact hJ.move hg (hgrow.coherent hg hfit) hmove hx (hgrow.place? hend)
      (fun v y hv => .inl ((hplace v).symm.trans hv))
      (hJ.unweighted_traverseEdge _ _ _ _)

theorem follow {visit : Visit}
    (hs : w.learners[i]? = some ⟨t, previous, .follow visit :: rest⟩) :
    (⟨(w.graph.follow t.sampleKey previous visit).1,
      w.learners.set i ⟨t, (w.graph.follow t.sampleKey previous visit).2, rest⟩⟩ :
      Shared α).Sound total := by
  have hg := hw.coherent
  have hable := hw.able _ (List.mem_of_getElem? hs)
  obtain ⟨x, hx⟩ : ∃ x, w.graph.place? previous = some x := hable.placed
  obtain ⟨J₀, hJ₀, hsub⟩ := hw.exists_recorded
  have hready : w.graph.Ready previous [visit] := by
    refine ⟨hg.seeded, slot_lt_of_place? hx, fun u hu => ?_⟩
    rw [List.mem_singleton.mp hu]
    exact hable.declared visit List.mem_cons_self
  have hpair : (x, .query (visit.key.identity w.graph.settings.usePastPartitions)) ∈
      crossings total :=
    List.mem_filterMap.mpr ⟨_, hw.next_mem hs (remaining_eq hx _), rfl⟩
  -- first the vertex of the visit is there, then the transaction moves on to it
  have hgrowVertex := hready.growth_ensureVertex
  have hgrow := hready.growth_follow t.sampleKey
  have hfitVertex := hg.fits_ensureVertex hw.fits (hJ₀.places_subset hg hsub)
    (List.mem_append_right _ (arrives_of_crosses hpair)) hroom.vertices
  have hgVertex := hgrowVertex.coherent hg hfitVertex
  have hedges : (w.graph.ensureVertex visit.key).1.edges = w.graph.edges :=
    ensureVertex_keeps (·.edges) rfl
  have hdest := place?_ensureVertex w.graph visit.key hfitVertex
  have hlinks : (w.graph.ensureVertex visit.key).1.links ⊆ crossings total := by
    rw [hgrowVertex.links_eq hg hedges]
    exact hJ₀.links_subset hg hsub
  have hfit : (w.graph.follow t.sampleKey previous visit).1.Fits :=
    hgVertex.fits_traverseEdge hfitVertex t.sampleKey hlinks (hgrowVertex.place? hx) hdest hpair
      hroom.edges visit.remaining
  have hdest' : (w.graph.follow t.sampleKey previous visit).1.place?
      (w.graph.follow t.sampleKey previous visit).2 = _ :=
    (hready.growth_move t.sampleKey).place? hdest
  have hmove := move_follow hg.arranged t.sampleKey hready hfit
  refine hw.step hs (.leg x (.query (visit.key.identity w.graph.settings.usePastPartitions))) hgrow
    hfit (hable.next hgrow hdest') ?_ fun J hJ => ?_
  · rw [remaining_eq hx, remaining_eq hdest', hgrow.settings_eq]
    rfl
  · refine hJ.move hg (hgrow.coherent hg hfit) hmove hx hdest' (fun v y hv => ?_) ?_
    · obtain ⟨y', hy', rfl⟩ := Option.map_eq_some_iff.mp hv
      rw [hgrow.settings_eq]
      exact (state?_follow hy').imp place?_eq fun h => h.2 hfitVertex
    · exact hJ.unweighted_follow _ _ _

end Sound

/-- Whoever's turn it is, a sound run goes on. -/
theorem Sound.turn {w : Shared α} {total : List Passage} (hw : w.Sound total)
    (hroom : Roomy total) (i : Nat) : (w.turn i).Sound total := by
  unfold Shared.turn
  cases hs : w.learners[i]? with
  | none => exact hw
  | some s =>
      obtain ⟨t, previous, pending⟩ := s
      cases pending with
      | nil =>
          obtain ⟨hi, hget⟩ := List.getElem?_eq_some_iff.mp hs
          have hset : w.learners.set i ⟨t, previous, []⟩ = w.learners := by
            rw [← hget, List.set_getElem_self]
          show (⟨w.graph, w.learners.set i ⟨t, previous, []⟩⟩ : Shared α).Sound total
          rw [hset]
          exact hw
      | cons next rest =>
          cases next with
          | enter => exact hw.enter hs
          | follow visit => exact hw.follow hroom hs
          | leave => exact hw.leave hroom hs
          | count => exact hw.count hs

theorem Sound.run {w : Shared α} {total : List Passage} (hroom : Roomy total)
    (schedule : List Nat) (hw : w.Sound total) : (w.run schedule).Sound total := by
  induction schedule generalizing w with
  | nil => exact hw
  | cons i schedule ih => exact ih (hw.turn hroom i)

theorem sound_start (p : Procedure) (s : ModelSettings α)
    (ts : List (TransactionTrace × Estimator)) :
    (⟨Graph.fresh p s, admitted p ts⟩ : Shared α).Sound (script p s.usePastPartitions ts) := by
  have hg := coherent_fresh p s
  have hstart : (Graph.fresh p s).place? Markers.fixed.start = some .start :=
    place?_eq (hg.marked.start hg.seeded)
  have hadmitted : ∀ u ∈ admitted p ts, ∃ t visits, u = .fresh t visits ∧
      ∀ visit ∈ visits, p.declares visit.key.statement = true := by
    intro u hu
    obtain ⟨t, -, ht⟩ := List.mem_filterMap.mp hu
    obtain ⟨visits, hvisits, rfl⟩ := Option.map_eq_some_iff.mp ht
    have hitinerary := itinerary_of_resolve (eq_ok_of_toOption hvisits)
    exact ⟨t.1, visits, rfl, fun visit hvisit =>
      hitinerary.declares _ (List.mem_map_of_mem hvisit)⟩
  refine ⟨hg, fits_fresh p s, fun u hu => ?_, [], recorded_fresh p s, .of_eq ?_⟩
  · obtain ⟨t, visits, rfl, hdeclared⟩ := hadmitted u hu
    refine ⟨⟨_, hstart⟩, fun visit hvisit => hdeclared visit ?_⟩
    simpa [Learner.fresh] using hvisit
  · refine List.flatMap_congr fun u hu => ?_
    obtain ⟨t, visits, rfl, -⟩ := hadmitted u hu
    exact remaining_eq hstart _

/-- Once all transactions have taken all of their steps, the graph has recorded the passages of
all accepted traces, whatever the schedule was and in whatever order the traces came. -/
theorem recorded_run {p : Procedure} {s : ModelSettings α}
    {ts ts' : List (TransactionTrace × Estimator)}
    (hroom : Roomy (script p s.usePastPartitions ts)) (hperm : ts'.Perm ts) {schedule : List Nat}
    (hfinished : ((⟨Graph.fresh p s, admitted p ts'⟩ : Shared α).run schedule).Finished) :
    let g := ((⟨Graph.fresh p s, admitted p ts'⟩ : Shared α).run schedule).graph
    g.Coherent ∧ g.Recorded (script p s.usePastPartitions ts) := by
  intro g
  have hscript := script_perm p s.usePastPartitions hperm
  have hsound := (sound_start p s ts').run (hroom.of_perm hscript) schedule
  obtain ⟨J, hJ, htotal⟩ := hsound.recorded
  have hnone : ((⟨Graph.fresh p s, admitted p ts'⟩ : Shared α).run schedule).learners.flatMap
      g.remaining = [] := by
    refine List.flatMap_eq_nil_iff.mpr fun u hu => ?_
    rw [Graph.remaining, hfinished u hu]
    rfl
  rw [hnone, List.append_nil] at htotal
  exact ⟨hsound.coherent, hJ.perm (htotal.trans hscript)⟩

/-- Learning traces one after the other records their passages. -/
theorem recorded_lessons {p : Procedure} {s : ModelSettings α}
    {ts ts' : List (TransactionTrace × Estimator)}
    (hroom : Roomy (script p s.usePastPartitions ts)) (hperm : ts'.Perm ts) :
    let g := (Graph.fresh p s).performAll (lessons ts')
    g.Coherent ∧ g.Recorded (script p s.usePastPartitions ts) := by
  have hg := coherent_fresh p s
  obtain ⟨schedule, after, hdone, hrun⟩ :=
    exists_serial p ts' (Graph.fresh p s) [] hg.marked hg.seeded rfl
  simp only [List.nil_append] at hrun
  have hfinished :
      ((⟨Graph.fresh p s, admitted p ts'⟩ : Shared α).run schedule).Finished := by
    rw [hrun]
    exact hdone
  have hrecorded := recorded_run hroom hperm hfinished
  rwa [hrun] at hrecorded

end Shared

end PathForecast
