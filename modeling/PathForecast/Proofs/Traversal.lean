import Mathlib.Tactic
import PathForecast.Traversal

/-!
# Depth-first order

What the traversal keeps: marks, stack and order agree, every frame on the stack was pushed from
the one below it, and a successor of a closed vertex was closed earlier unless it leads back to
that vertex. The work still to be done shrinks with every step, so the traversal ends within its
budget. Main statements: `perm_order_run`, the order has every vertex once, and
`settled_order_run`, an edge to a vertex that was not closed before its source closes a cycle.
-/

set_option autoImplicit false

namespace PathForecast

theorem getElem?_set_of_lt {β : Type} {xs : Array β} {i : Nat} (hi : i < xs.size) (x : β)
    (j : Nat) : (xs.setIfInBounds i x)[j]? = if i = j then some x else xs[j]? := by
  simp [Array.getElem?_setIfInBounds, hi]

namespace Traversal

variable {out : Array (List Nat)} {t : Traversal}

/-! ## Leading back -/

def Follows (out : Array (List Nat)) (v w : Nat) : Prop := w ∈ successorsIn out v

theorem lt_of_follows {v w : Nat} (h : Follows out v w) : v < out.size := by
  by_contra hv
  rw [Follows, successorsIn, Array.getElem?_eq_none (not_lt.mp hv)] at h
  exact List.not_mem_nil h

def LeadsTo (out : Array (List Nat)) : Nat → Nat → Prop := Relation.ReflTransGen (Follows out)

/-- Every successor of a listed vertex comes later in the list or leads back to it. -/
def Settled (out : Array (List Nat)) : List Nat → Prop
  | [] => True
  | v :: order => (∀ w ∈ successorsIn out v, w ∈ order ∨ LeadsTo out w v) ∧ Settled out order

def Closed (out : Array (List Nat)) : Prop := ∀ v, ∀ w ∈ successorsIn out v, w < out.size

/-! ## The invariant -/

/-- A traversal under way that has kept its books. -/
structure Sound (out : Array (List Nat)) (t : Traversal) : Prop where
  size : t.marks.size = out.size
  waiting : ∀ v, t.marks[v]? = some .waiting ↔ v ∈ t.stack.map Prod.fst
  closed : ∀ v, t.marks[v]? = some .closed ↔ v ∈ t.order
  nodupStack : (t.stack.map Prod.fst).Nodup
  nodupOrder : t.order.Nodup
  /-- A frame was pushed when its vertex was looked at from the frame below. -/
  chain : (t.stack.map Prod.fst).IsChain fun child parent => Follows out parent child
  /-- A frame has its successors still to be looked at; the others have been seen. -/
  looked : ∀ f ∈ t.stack, ∃ seen, successorsIn out f.1 = seen ++ f.2 ∧
    ∀ w ∈ seen, t.marks[w]? ≠ some .unseen
  settled : Settled out t.order

theorem lt_of_marked {v : Nat} {m : Mark} (hv : t.marks[v]? = some m) : v < t.marks.size :=
  (Array.getElem?_eq_some_iff.mp hv).1

theorem sound_fresh (out : Array (List Nat)) : (fresh out.size).Sound out := by
  refine ⟨Array.size_replicate, fun v => ?_, fun v => ?_, List.nodup_nil, List.nodup_nil,
    List.IsChain.nil, nofun, trivial⟩
  all_goals
    simp only [fresh, Array.getElem?_replicate]
    split <;> simp

/-- Whoever is below a frame leads to its vertex. -/
theorem leadsTo_of_chain {v : Nat} {rest : List Nat}
    (h : (v :: rest).IsChain fun child parent => Follows out parent child) :
    ∀ w ∈ v :: rest, LeadsTo out w v := by
  induction rest generalizing v with
  | nil =>
      intro w hw
      rw [List.mem_singleton.mp hw]
      exact Relation.ReflTransGen.refl
  | cons u rest ih =>
      obtain ⟨hstep, hrest⟩ := List.isChain_cons_cons.mp h
      intro w hw
      rcases List.mem_cons.mp hw with rfl | hw
      · exact Relation.ReflTransGen.refl
      · exact (ih hrest w hw).tail hstep

namespace Sound

/-- Closing the vertex on top, all of whose successors have been looked at. -/
theorem close (hout : Closed out) (h : t.Sound out) {v : Nat} {rest : List (Nat × List Nat)}
    (hstack : t.stack = (v, []) :: rest) (steps : Nat) :
    Sound out { t with
      marks := t.marks.setIfInBounds v .closed
      stack := rest
      order := v :: t.order
      steps := steps } := by
  have hwaiting : t.marks[v]? = some .waiting := (h.waiting v).mpr (by simp [hstack])
  have hlt := lt_of_marked hwaiting
  have hmark := getElem?_set_of_lt hlt Mark.closed
  have hnodup := h.nodupStack
  have hchain := h.chain
  rw [hstack, List.map_cons] at hnodup hchain
  obtain ⟨hnotmem, hnodup⟩ := List.nodup_cons.mp hnodup
  have hopen : v ∉ t.order := fun hmem => by
    have := (h.closed v).mpr hmem
    rw [hwaiting] at this
    cases this
  refine ⟨Array.size_setIfInBounds.trans h.size, fun w => ?_, fun w => ?_, hnodup,
    List.nodup_cons.mpr ⟨hopen, h.nodupOrder⟩, hchain.tail, fun f hf => ?_, ?_, h.settled⟩
  · rw [hmark]
    by_cases hw : v = w
    · subst hw
      simpa using hnotmem
    · rw [if_neg hw, h.waiting, hstack]
      simp [Ne.symm hw]
  · rw [hmark]
    by_cases hw : v = w
    · simp [hw]
    · rw [if_neg hw, h.closed]
      simp [Ne.symm hw]
  · obtain ⟨seen, hseen, hmarks⟩ := h.looked f (by rw [hstack]; exact List.mem_cons_of_mem _ hf)
    refine ⟨seen, hseen, fun w hw => ?_⟩
    rw [hmark]
    split
    · simp
    · exact hmarks w hw
  · -- a successor is closed, and then in the order, or waits below, and then leads back
    intro w hw
    obtain ⟨seen, hseen, hmarks⟩ := h.looked (v, []) (by rw [hstack]; exact List.mem_cons_self)
    rw [List.append_nil] at hseen
    have hmarked := hmarks w (hseen ▸ hw)
    have hwlt : w < t.marks.size := h.size ▸ hout v w hw
    cases hm : t.marks[w] with
    | unseen => exact absurd (Array.getElem?_eq_some_iff.mpr ⟨hwlt, hm⟩) hmarked
    | closed => exact .inl ((h.closed w).mp (Array.getElem?_eq_some_iff.mpr ⟨hwlt, hm⟩))
    | waiting =>
        have hmem := (h.waiting w).mp (Array.getElem?_eq_some_iff.mpr ⟨hwlt, hm⟩)
        rw [hstack] at hmem
        exact .inr (leadsTo_of_chain hchain w hmem)

/-- Once the next successor has been looked at as well, its frame has one less. -/
theorem looked_next (h : t.Sound out) {v w : Nat} {ws : List Nat} {rest : List (Nat × List Nat)}
    (hstack : t.stack = (v, w :: ws) :: rest) :
    ∀ f ∈ (v, ws) :: rest, ∃ seen, successorsIn out f.1 = seen ++ f.2 ∧
      ∀ u ∈ seen, u = w ∨ t.marks[u]? ≠ some .unseen := by
  intro f hf
  rcases List.mem_cons.mp hf with rfl | hf
  · obtain ⟨seen, hseen, hmarks⟩ :=
      h.looked (v, w :: ws) (by rw [hstack]; exact List.mem_cons_self)
    refine ⟨seen ++ [w], by rw [hseen, List.append_assoc]; rfl, fun u hu => ?_⟩
    rcases List.mem_append.mp hu with hu | hu
    · exact .inr (hmarks u hu)
    · exact .inl (List.mem_singleton.mp hu)
  · obtain ⟨seen, hseen, hmarks⟩ := h.looked f (by rw [hstack]; exact List.mem_cons_of_mem _ hf)
    exact ⟨seen, hseen, fun u hu => .inr (hmarks u hu)⟩

/-- Leaving a successor that has been seen before. -/
theorem skip (h : t.Sound out) {v w : Nat} {ws : List Nat} {rest : List (Nat × List Nat)}
    (hstack : t.stack = (v, w :: ws) :: rest) (hw : t.marks[w]? ≠ some .unseen)
    (backEdges steps : Nat) :
    Sound out { t with stack := (v, ws) :: rest, backEdges := backEdges, steps := steps } := by
  have hmap : t.stack.map Prod.fst = ((v, ws) :: rest).map Prod.fst := by rw [hstack]; rfl
  refine ⟨h.size, fun u => (h.waiting u).trans (by rw [hmap]), h.closed, hmap ▸ h.nodupStack,
    h.nodupOrder, hmap ▸ h.chain, fun f hf => ?_, h.settled⟩
  obtain ⟨seen, hseen, hmarks⟩ := h.looked_next hstack f hf
  refine ⟨seen, hseen, fun u hu => ?_⟩
  rcases hmarks u hu with rfl | hu
  · exact hw
  · exact hu

/-- Entering a vertex that has not been seen before. -/
theorem push (h : t.Sound out) {w : Nat} (hw : t.marks[w]? = some .unseen)
    {stack : List (Nat × List Nat)} (hstack : t.stack.map Prod.fst = stack.map Prod.fst)
    (hparent : ∀ v ∈ (stack.map Prod.fst).head?, Follows out v w)
    (hlooked : ∀ f ∈ stack, ∃ seen, successorsIn out f.1 = seen ++ f.2 ∧
      ∀ u ∈ seen, u = w ∨ t.marks[u]? ≠ some .unseen) (steps : Nat) :
    (Traversal.push { t with stack := stack, steps := steps } out w).Sound out := by
  have hlt := lt_of_marked hw
  have hmark := getElem?_set_of_lt hlt Mark.waiting
  have hnew : w ∉ stack.map Prod.fst := fun hmem => by
    have := (h.waiting w).mpr (hstack ▸ hmem)
    rw [hw] at this
    cases this
  refine ⟨Array.size_setIfInBounds.trans h.size, fun v => ?_, fun v => ?_, ?_, h.nodupOrder, ?_,
    fun f hf => ?_, h.settled⟩
  · show (t.marks.setIfInBounds w .waiting)[v]? = _ ↔ v ∈ w :: stack.map Prod.fst
    rw [hmark]
    by_cases hv : w = v
    · simp [hv]
    · rw [if_neg hv, h.waiting, hstack, List.mem_cons]
      exact (or_iff_right (Ne.symm hv)).symm
  · show (t.marks.setIfInBounds w .waiting)[v]? = _ ↔ v ∈ t.order
    rw [hmark, ← h.closed]
    by_cases hv : w = v
    · subst hv
      simp [hw]
    · rw [if_neg hv]
  · exact List.nodup_cons.mpr ⟨hnew, hstack ▸ h.nodupStack⟩
  · exact (hstack ▸ h.chain).cons hparent
  · rcases List.mem_cons.mp hf with rfl | hf
    · exact ⟨[], rfl, nofun⟩
    · obtain ⟨seen, hseen, hmarks⟩ := hlooked f hf
      refine ⟨seen, hseen, fun u hu => ?_⟩
      show (t.marks.setIfInBounds w .waiting)[u]? ≠ some Mark.unseen
      rw [hmark]
      split
      · simp
      · next hne =>
          rcases hmarks u hu with rfl | hu
          · exact absurd rfl hne
          · exact hu

end Sound

theorem Sound.step (hout : Closed out) (h : t.Sound out) : (t.step out).Sound out := by
  unfold Traversal.step
  split
  · exact h
  · next v rest hstack => exact h.close hout hstack _
  · -- one more successor of the vertex on top is looked at
    next v w ws rest hstack =>
      obtain ⟨seen, hseen, -⟩ :=
        h.looked (v, w :: ws) (by rw [hstack]; exact List.mem_cons_self)
      have hfollows : Follows out v w := by
        show w ∈ successorsIn out v
        rw [hseen]
        exact List.mem_append_right seen List.mem_cons_self
      have hwlt : w < t.marks.size := h.size ▸ hout v w hfollows
      dsimp only
      split
      · next hw =>
          refine h.push hw ?_ ?_ (h.looked_next hstack) _
          · rw [hstack]
            rfl
          · rintro u ⟨⟩
            exact hfollows
      · next hw => exact h.skip hstack (by rw [hw]; simp) _ _
      · next hw => exact h.skip hstack (by rw [hw]; simp) _ _
      · next hw => exact absurd hw (by simpa using hwlt)

/-! ## The work still to be done -/

/-- One step for each vertex not yet closed and for each edge not yet looked at. -/
def pending (out : Array (List Nat)) (t : Traversal) : Nat :=
  (∑ v ∈ Finset.range out.size,
    if t.marks[v]? = some .unseen then (successorsIn out v).length + 1 else 0) +
  (t.stack.map fun f => f.2.length + 1).sum

theorem sum_unseen_mark {marks : Array Mark} {w n : Nat} (hn : marks.size = n)
    (hw : marks[w]? = some .unseen) (cost : Nat → Nat) :
    (∑ v ∈ Finset.range n,
        if (marks.setIfInBounds w .waiting)[v]? = some .unseen then cost v else 0) + cost w =
      ∑ v ∈ Finset.range n, if marks[v]? = some .unseen then cost v else 0 := by
  have hlt : w < marks.size := (Array.getElem?_eq_some_iff.mp hw).1
  have hmem : w ∈ Finset.range n := Finset.mem_range.mpr (hn ▸ hlt)
  have hmark := getElem?_set_of_lt hlt Mark.waiting
  rw [← Finset.add_sum_erase _ _ hmem, ← Finset.add_sum_erase _ _ hmem, hmark, if_pos rfl,
    if_neg (by simp), if_pos hw, Nat.zero_add, Nat.add_comm]
  congr 1
  refine Finset.sum_congr rfl fun v hv => ?_
  rw [hmark, if_neg (Ne.symm (Finset.ne_of_mem_erase hv))]

/-- Entering a vertex moves its work from the unseen vertices to the stack. -/
theorem pending_push (h : t.marks.size = out.size) {w : Nat}
    (hw : t.marks[w]? = some .unseen) : (t.push out w).pending out = t.pending out := by
  have hsum := sum_unseen_mark h hw fun v => (successorsIn out v).length + 1
  unfold pending Traversal.push
  simp only [List.map_cons, List.sum_cons]
  omega

theorem pending_step (h : t.Sound out) (hstack : t.stack ≠ []) :
    (t.step out).pending out + 1 = t.pending out := by
  unfold Traversal.step
  split
  · next hnil => exact absurd hnil hstack
  · -- closing a vertex pays its last frame; it had not been unseen before
    next v rest hstack =>
      have hwaiting : t.marks[v]? = some .waiting := (h.waiting v).mpr (by simp [hstack])
      have hmark := getElem?_set_of_lt (lt_of_marked hwaiting) Mark.closed
      have hsame : ∀ u : Nat, (t.marks.setIfInBounds v .closed)[u]? = some Mark.unseen ↔
          t.marks[u]? = some Mark.unseen := by
        intro u
        rw [hmark]
        split
        · next heq => simp [← heq, hwaiting]
        · rfl
      simp only [pending, hsame, hstack, List.map_cons, List.sum_cons, List.length_nil]
      omega
  · -- whatever becomes of the successor, the frame has one less
    next v w ws rest hstack =>
      have hdrop : pending out { t with stack := (v, ws) :: rest, steps := t.steps + 1 } + 1 =
          t.pending out := by
        simp only [pending, hstack, List.map_cons, List.sum_cons, List.length_cons]
        omega
      dsimp only
      split
      · next hw =>
          rw [← hdrop]
          exact congrArg (· + 1) (pending_push (by exact h.size) hw)
      · exact hdrop
      · exact hdrop
      · exact hdrop

theorem stack_eq_nil_of_pending (h : t.pending out = 0) : t.stack = [] := by
  cases hstack : t.stack with
  | nil => rfl
  | cons f rest =>
      rw [pending, hstack, List.map_cons, List.sum_cons] at h
      omega

/-! ## Whole runs -/

theorem marks_step {w : Nat} (h : t.marks[w]? ≠ some .unseen) :
    (t.step out).marks[w]? ≠ some .unseen := by
  -- a step sets a mark to waiting or to closed, never back
  have hset : ∀ (v : Nat) (m : Mark), m ≠ .unseen →
      (t.marks.setIfInBounds v m)[w]? ≠ some .unseen := by
    intro v m hm
    rw [Array.getElem?_setIfInBounds]
    split
    · split
      · simpa using hm
      · simp
    · exact h
  unfold Traversal.step
  split
  · exact h
  · exact hset _ _ (by simp)
  · dsimp only
    split
    · exact hset _ _ (by simp)
    all_goals exact h

/-- With enough fuel the stack is emptied. -/
theorem drain_spec (hout : Closed out) :
    ∀ {fuel : Nat} {t : Traversal}, t.Sound out → t.pending out ≤ fuel →
      (drain out fuel t).Sound out ∧ (drain out fuel t).stack = [] ∧
        (drain out fuel t).pending out ≤ t.pending out ∧
        ∀ w : Nat, t.marks[w]? ≠ some .unseen → (drain out fuel t).marks[w]? ≠ some .unseen
  | 0, t, h, hfuel =>
      ⟨h, stack_eq_nil_of_pending (Nat.le_zero.mp hfuel), Nat.le_refl _, fun _ hw => hw⟩
  | fuel + 1, t, h, hfuel => by
      -- a step costs one unit of fuel and lowers the pending work by one
      rw [drain]
      split
      · next hempty => exact ⟨h, List.isEmpty_iff.mp hempty, Nat.le_refl _, fun _ hw => hw⟩
      · next hstack =>
          have hstep := pending_step h fun hnil => hstack (List.isEmpty_iff.mpr hnil)
          have hrest : (t.step out).pending out ≤ fuel := by omega
          obtain ⟨hsound, hnil, hle, hmarks⟩ := drain_spec hout (h.step hout) hrest
          exact ⟨hsound, hnil, by omega, fun w hw => hmarks w (marks_step hw)⟩

theorem budget_eq_sum (out : Array (List Nat)) :
    budget out = ((List.range out.size).map fun v => (successorsIn out v).length + 1).sum := by
  have hfold : budget out = (out.toList.map fun successors => successors.length + 1).sum := by
    unfold budget
    induction out.toList with
    | nil => rfl
    | cons successors rest ih => rw [List.foldr_cons, ih, List.map_cons, List.sum_cons]
  rw [hfold]
  refine congrArg List.sum (List.ext_getElem (by simp) fun i hi _ => ?_)
  have hlt : i < out.size := by simpa using hi
  simp [successorsIn, hlt]

theorem pending_fresh (out : Array (List Nat)) : (fresh out.size).pending out = budget out := by
  rw [budget_eq_sum, pending]
  refine (Nat.add_zero _).trans (Finset.sum_congr rfl fun v hv => if_pos ?_)
  exact Array.getElem?_replicate.trans (if_pos (Finset.mem_range.mp hv))

/-- What holds before and after every visit: nothing is waiting. -/
structure Resting (out : Array (List Nat)) (t : Traversal) : Prop where
  sound : t.Sound out
  stack : t.stack = []
  pending : t.pending out ≤ budget out

theorem resting_fresh (out : Array (List Nat)) : (fresh out.size).Resting out :=
  ⟨sound_fresh out, rfl, (pending_fresh out).le⟩

theorem Resting.visit (hout : Closed out) (h : t.Resting out) (root : Nat) :
    (visit out t root).Resting out ∧ (visit out t root).marks[root]? ≠ some .unseen ∧
      ∀ w : Nat, t.marks[w]? ≠ some .unseen → (visit out t root).marks[w]? ≠ some .unseen := by
  unfold Traversal.visit
  split
  · next hroot =>
      have hpush : (t.push out root).Sound out :=
        h.sound.push hroot rfl (by simp [h.stack]) (by simp [h.stack]) t.steps
      have hle : (t.push out root).pending out ≤ budget out :=
        (pending_push h.sound.size hroot).le.trans h.pending
      obtain ⟨hsound, hnil, hpending, hmarks⟩ := drain_spec hout hpush hle
      have hmark := getElem?_set_of_lt (lt_of_marked hroot) Mark.waiting
      refine ⟨⟨hsound, hnil, hpending.trans hle⟩, hmarks root ?_, fun w hw => hmarks w ?_⟩
      · show (t.marks.setIfInBounds root .waiting)[root]? ≠ some Mark.unseen
        simp [hmark]
      · show (t.marks.setIfInBounds root .waiting)[w]? ≠ some Mark.unseen
        rw [hmark]
        split
        · simp
        · exact hw
  · next hroot => exact ⟨h, hroot, fun _ hw => hw⟩

theorem resting_visits (hout : Closed out) (roots : List Nat) :
    ∀ {t : Traversal}, t.Resting out →
      (roots.foldl (visit out) t).Resting out ∧
        ∀ w : Nat, w ∈ roots ∨ t.marks[w]? ≠ some .unseen →
          (roots.foldl (visit out) t).marks[w]? ≠ some .unseen := by
  induction roots with
  | nil => exact fun h => ⟨h, fun w hw => hw.resolve_left List.not_mem_nil⟩
  | cons root roots ih =>
      intro t h
      obtain ⟨hvisit, hroot, hmarks⟩ := h.visit hout root
      obtain ⟨hrest, hseen⟩ := ih hvisit
      refine ⟨hrest, fun w hw => hseen w ?_⟩
      rcases hw with hw | hw
      · rcases List.mem_cons.mp hw with rfl | hw
        · exact .inr hroot
        · exact .inl hw
      · exact .inr (hmarks w hw)

theorem resting_run (hout : Closed out) : (run out).Resting out :=
  (resting_visits hout _ (resting_fresh out)).1

/-- The order lists every vertex once. -/
theorem perm_order_run (hout : Closed out) : (run out).order.Perm (List.range out.size) := by
  obtain ⟨hrest, hseen⟩ := resting_visits hout (List.range out.size) (resting_fresh out)
  refine (List.perm_ext_iff_of_nodup hrest.sound.nodupOrder List.nodup_range).mpr fun v => ?_
  rw [List.mem_range]
  refine ((hrest.sound.closed v).symm.trans ⟨fun hv => hrest.sound.size ▸ lt_of_marked hv,
    fun hlt => ?_⟩)
  have hunseen := hseen v (.inl (List.mem_range.mpr hlt))
  have hv := hrest.sound.size.symm ▸ hlt
  -- no vertex is left unseen, and none is waiting on the empty stack
  cases hm : ((List.range out.size).foldl (visit out) (fresh out.size)).marks[v] with
  | closed => exact Array.getElem?_eq_some_iff.mpr ⟨hv, hm⟩
  | unseen => exact absurd (Array.getElem?_eq_some_iff.mpr ⟨hv, hm⟩) hunseen
  | waiting =>
      have hmem := (hrest.sound.waiting v).mp (Array.getElem?_eq_some_iff.mpr ⟨hv, hm⟩)
      rw [hrest.stack] at hmem
      exact absurd hmem List.not_mem_nil

/-- In the order of a run, an edge that leads to no later entry closes a cycle. -/
theorem settled_order_run (hout : Closed out) : Settled out (run out).order :=
  (resting_run hout).sound.settled

end Traversal

end PathForecast
