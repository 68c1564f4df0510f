import PathForecast.Proofs.Traversal

/-!
# The traversal as a loop

The traversal runs until nothing is left to do; the bound on its steps is only there for the
recursion. `Next` is one turn of the loop without a bound, `Reached` says which states it passes
through, and `Back` names the edges whose destination is still on the stack when their source is
closed. Main statements: `reached_run` and `not_next_run`, the bounded run is the whole loop;
`steps_run`, it takes a step for each vertex and for each edge; `backEdges_run`, the edges that it
counts are those of `Back`; `not_transGen_forward`, the other edges form no cycle; and
`backEdges_run_eq_zero_iff`, it counts none if and only if there is no cycle.
-/

set_option autoImplicit false

namespace PathForecast

namespace Traversal

variable {out : Array (List Nat)} {t u : Traversal}

/-! ## Turns -/

/-- The vertices that were entered and are not yet closed, the last one first. -/
def path (t : Traversal) : List Nat := t.stack.map Prod.fst

/-- One turn of the loop: a step while there is something on the stack; else the first vertex that
was not seen is entered as a root. -/
inductive Next (out : Array (List Nat)) (t : Traversal) : Traversal → Prop
  | step (hstack : t.stack ≠ []) : Next out t (t.step out)
  | root {v : Nat} (hstack : t.stack = []) (hv : t.marks[v]? = some .unseen)
      (hfirst : ∀ w < v, t.marks[w]? ≠ some .unseen) : Next out t (t.push out v)

def Later (out : Array (List Nat)) : Traversal → Traversal → Prop :=
  Relation.ReflTransGen (Next out)

def Reached (out : Array (List Nat)) (t : Traversal) : Prop := Later out (fresh out.size) t

theorem rightUnique_next (out : Array (List Nat)) : Relator.RightUnique (Next out) := by
  rintro t u u' (hstack | ⟨hstack, hv, hfirst⟩) (hstack' | ⟨hstack', hv', hfirst'⟩)
  · rfl
  · exact absurd hstack' hstack
  · exact absurd hstack hstack'
  · next v v' =>
      -- of two first vertices that were not seen, neither comes before the other
      have hle : v ≤ v' := not_lt.mp fun hlt => hfirst v' hlt hv'
      have hge : v' ≤ v := not_lt.mp fun hlt => hfirst' v hlt hv
      rw [Nat.le_antisymm hle hge]

theorem next_of_top {f : Nat × List Nat} {rest : List (Nat × List Nat)}
    (hstack : t.stack = f :: rest) : Next out t (t.step out) :=
  .step (by rw [hstack]; exact List.cons_ne_nil _ _)

/-- What a turn does to stack and order: nothing, or it enters a vertex, or it closes one. -/
theorem Next.cases (h : Next out t u) :
    u.path = t.path ∧ u.order = t.order ∨
      (∃ v, t.marks[v]? = some .unseen ∧ u.path = v :: t.path ∧ u.order = t.order) ∨
      ∃ v rest, t.stack = (v, []) :: rest ∧ u.path = rest.map Prod.fst ∧
        u.order = v :: t.order := by
  cases h with
  | root hstack hv hfirst => exact .inr (.inl ⟨_, hv, rfl, rfl⟩)
  | step hstack =>
      unfold Traversal.step
      split
      · next hnil => exact absurd hnil hstack
      · next v rest hstack => exact .inr (.inr ⟨v, rest, hstack, rfl, rfl⟩)
      · next v d ds rest hstack =>
          have hpath : t.path = v :: rest.map Prod.fst := by rw [path, hstack]; rfl
          dsimp only
          split
          · next hd => exact .inr (.inl ⟨d, hd, by rw [hpath]; rfl, rfl⟩)
          all_goals exact .inl ⟨hpath.symm, rfl⟩

theorem Later.exists_order_eq (h : Later out t u) : ∃ later, u.order = later ++ t.order := by
  induction h with
  | refl => exact ⟨[], rfl⟩
  | tail _ hnext ih =>
      obtain ⟨later, hlater⟩ := ih
      rcases hnext.cases with ⟨-, horder⟩ | ⟨_, -, -, horder⟩ | ⟨v, _, -, -, horder⟩
      · exact ⟨later, horder.trans hlater⟩
      · exact ⟨later, horder.trans hlater⟩
      · exact ⟨v :: later, by rw [horder, hlater]; rfl⟩

/-- A vertex on the stack is either still there or was closed meanwhile, when all that had been
entered after it was gone from the stack. -/
theorem Later.exists_closing (h : Later out t u) {above below : List Nat} {v : Nat}
    (hv : t.path = above ++ v :: below) :
    (∃ above, u.path = above ++ v :: below) ∨
      ∃ c rest, Later out t c ∧ c.stack = (v, []) :: rest ∧ rest.map Prod.fst = below := by
  induction h with
  | refl => exact .inl ⟨above, hv⟩
  | @tail c u hlater hnext ih =>
      rcases ih with ⟨above, habove⟩ | hclosed
      · rcases hnext.cases with ⟨hpath, -⟩ | ⟨w, -, hpath, -⟩ | ⟨w, rest, hstack, hpath, -⟩
        · exact .inl ⟨above, hpath.trans habove⟩
        · exact .inl ⟨w :: above, by rw [hpath, habove]; rfl⟩
        · rw [path, hstack, List.map_cons] at habove
          cases above with
          | nil =>
              obtain ⟨rfl, hrest⟩ := List.cons.inj habove
              exact .inr ⟨c, rest, hlater, hstack, hrest⟩
          | cons first above =>
              exact .inl ⟨above, hpath.trans (List.cons.inj habove).2⟩
      · exact .inr hclosed

/-- What has been closed was on top of the stack. -/
theorem Later.exists_closing_of_mem_order (h : Later out t u) {v : Nat} (hv : v ∈ u.order) :
    v ∈ t.order ∨ ∃ c rest, Later out t c ∧ c.stack = (v, []) :: rest := by
  induction h with
  | refl => exact .inl hv
  | @tail c u hlater hnext ih =>
      rcases hnext.cases with ⟨-, horder⟩ | ⟨_, -, -, horder⟩ | ⟨w, rest, hstack, -, horder⟩
      · exact ih (horder ▸ hv)
      · exact ih (horder ▸ hv)
      · rcases List.mem_cons.mp (horder ▸ hv) with rfl | hv
        · exact .inr ⟨c, rest, hlater, hstack⟩
        · exact ih hv

/-! ## The states the loop passes through -/

theorem Next.sound (hout : Closed out) (h : Next out t u) (ht : t.Sound out) : u.Sound out := by
  cases h with
  | step => exact ht.step hout
  | root hstack hv => exact ht.push hv rfl (by simp [hstack]) (by simp [hstack]) t.steps

theorem Reached.sound (hout : Closed out) (h : Reached out t) : t.Sound out := by
  induction h with
  | refl => exact sound_fresh out
  | tail _ hnext ih => exact hnext.sound hout ih

theorem Reached.later (h : Reached out t) (htu : Later out t u) : Reached out u := h.trans htu

theorem later_drain (out : Array (List Nat)) :
    ∀ (fuel : Nat) (t : Traversal), Later out t (drain out fuel t)
  | 0, _ => Relation.ReflTransGen.refl
  | fuel + 1, t => by
      rw [drain]
      split
      · exact Relation.ReflTransGen.refl
      · next hstack =>
          have hne : t.stack ≠ [] := fun hnil => hstack (List.isEmpty_iff.mpr hnil)
          exact .head (.step hne) (later_drain out fuel _)

/-- After the visits of the first roots, nothing is on the stack and those roots have been seen;
so the next visit is a turn of the loop, if it is anything. -/
theorem reached_visits (hout : Closed out) (k : Nat) :
    Reached out ((List.range k).foldl (visit out) (fresh out.size)) := by
  induction k with
  | zero => exact Relation.ReflTransGen.refl
  | succ k ih =>
      obtain ⟨hrest, hseen⟩ := resting_visits hout (List.range k) (resting_fresh out)
      rw [List.range_succ, List.foldl_append, List.foldl_cons, List.foldl_nil, visit]
      split
      · next hk =>
          have hroot : Next out _ (push _ out k) :=
            .root hrest.stack hk fun w hw => hseen w (.inl (List.mem_range.mpr hw))
          exact ih.later (.head hroot (later_drain out _ _))
      · exact ih

theorem reached_run (hout : Closed out) : Reached out (run out) := reached_visits hout out.size

theorem marks_run_ne_unseen (hout : Closed out) (v : Nat) :
    (run out).marks[v]? ≠ some .unseen := by
  obtain ⟨hrest, hseen⟩ := resting_visits hout (List.range out.size) (resting_fresh out)
  exact fun hv => hseen v (.inl (List.mem_range.mpr (hrest.sound.size ▸ lt_of_marked hv))) hv

/-- After the run there is nothing left to do. -/
theorem not_next_run (hout : Closed out) : ¬Next out (run out) u := by
  intro h
  cases h with
  | step hstack => exact hstack (resting_run hout).stack
  | root _ hv _ => exact marks_run_ne_unseen hout _ hv

/-- Of two states that the loop passes through, one leads to the other. -/
theorem Reached.total (ht : Reached out t) (hu : Reached out u) : Later out t u ∨ Later out u t :=
  Relation.ReflTransGen.total_of_right_unique (rightUnique_next out) ht hu

/-- The run is the end of the loop. -/
theorem Reached.later_run (hout : Closed out) (h : Reached out t) : Later out t (run out) := by
  rcases h.total (reached_run hout) with hlater | hlater
  · exact hlater
  · rcases hlater.cases_head with heq | ⟨u, hnext, -⟩
    · rw [heq]
      exact Relation.ReflTransGen.refl
    · exact absurd hnext (not_next_run hout)

/-! ## The steps that are taken -/

theorem steps_step (hstack : t.stack ≠ []) : (t.step out).steps = t.steps + 1 := by
  unfold Traversal.step
  split
  · next hnil => exact absurd hnil hstack
  · rfl
  · dsimp only
    split <;> rfl

/-- Every step pays one unit of the work that was to be done at the start. -/
theorem Reached.steps_add_pending (hout : Closed out) (h : Reached out t) :
    t.steps + t.pending out = budget out := by
  induction h with
  | refl => exact (Nat.zero_add _).trans (pending_fresh out)
  | @tail t u ht hnext ih =>
      have hsound := Reached.sound hout ht
      cases hnext with
      | root _ hv =>
          rw [pending_push hsound.size hv]
          exact ih
      | step hstack =>
          have hpending := pending_step hsound hstack
          rw [steps_step hstack]
          omega

theorem steps_run (hout : Closed out) : (run out).steps = budget out := by
  have hdone : (run out).pending out = 0 := by
    rw [pending, (resting_run hout).stack, List.map_nil, List.sum_nil, Nat.add_zero]
    exact Finset.sum_eq_zero fun v _ => if_neg (marks_run_ne_unseen hout v)
  rw [← (reached_run hout).steps_add_pending hout, hdone, Nat.add_zero]

/-! ## Closing a vertex -/

/-- Once closed, a vertex stays in the order; on the stack it would still be waiting. -/
theorem Reached.not_later_of_closing (hout : Closed out) (hu : Reached out u) {v : Nat}
    {rest rest' : List (Nat × List Nat)} (hstack : t.stack = (v, []) :: rest)
    (hstack' : u.stack = (v, []) :: rest') : ¬Later out (t.step out) u := by
  intro hlater
  obtain ⟨later, horder⟩ := hlater.exists_order_eq
  have hsound := hu.sound hout
  have hwaiting := (hsound.waiting v).mpr (by simp [hstack'])
  have hclosed := (hsound.closed v).mpr (by simp [horder, Traversal.step, hstack])
  rw [hwaiting] at hclosed
  cases hclosed

theorem Reached.eq_of_later_of_closing (hout : Closed out) (hu : Reached out u) {v : Nat}
    {rest rest' : List (Nat × List Nat)} (hstack : t.stack = (v, []) :: rest)
    (hstack' : u.stack = (v, []) :: rest') (hlater : Later out t u) : t = u := by
  rcases hlater.cases_head with heq | ⟨c, hnext, hlater⟩
  · exact heq
  · rw [rightUnique_next out hnext (next_of_top hstack)] at hlater
    exact absurd hlater (hu.not_later_of_closing hout hstack hstack')

/-- A vertex is closed only once. -/
theorem Reached.eq_of_closing (hout : Closed out) (ht : Reached out t) (hu : Reached out u)
    {v : Nat} {rest rest' : List (Nat × List Nat)} (hstack : t.stack = (v, []) :: rest)
    (hstack' : u.stack = (v, []) :: rest') : t = u := by
  rcases ht.total hu with hlater | hlater
  · exact hu.eq_of_later_of_closing hout hstack hstack' hlater
  · exact (ht.eq_of_later_of_closing hout hstack' hstack hlater).symm

/-- Every vertex is closed at some point. -/
theorem exists_closing_run (hout : Closed out) {v : Nat} (hv : v < out.size) :
    ∃ t rest, Reached out t ∧ t.stack = (v, []) :: rest := by
  have hmem : v ∈ (run out).order :=
    (perm_order_run hout).mem_iff.mpr (List.mem_range.mpr hv)
  exact ((reached_run hout).exists_closing_of_mem_order hmem).resolve_left List.not_mem_nil

/-- What a vertex finds closed when it is closed itself comes after it in the order of the run. -/
theorem Reached.order_run_eq (hout : Closed out) (h : Reached out t) {v : Nat}
    {rest : List (Nat × List Nat)} (hstack : t.stack = (v, []) :: rest) :
    ∃ later, (run out).order = later ++ v :: t.order := by
  have hstep : Reached out (t.step out) := h.tail (next_of_top hstack)
  obtain ⟨later, hlater⟩ := (hstep.later_run hout).exists_order_eq
  exact ⟨later, by rw [hlater, Traversal.step, hstack]⟩

/-- When a vertex is closed, a successor is either closed already or still on the stack. -/
theorem Reached.mem_order_iff (hout : Closed out) (h : Reached out t) {v d : Nat}
    {rest : List (Nat × List Nat)} (hstack : t.stack = (v, []) :: rest)
    (hd : Follows out v d) : d ∈ t.order ↔ d ∉ t.path := by
  have hsound := h.sound hout
  obtain ⟨seen, hseen, hmarks⟩ :=
    hsound.looked (v, []) (by rw [hstack]; exact List.mem_cons_self)
  rw [List.append_nil] at hseen
  have hmarked := hmarks d (hseen ▸ hd)
  have hlt : d < t.marks.size := hsound.size ▸ hout v d hd
  have hmark : t.marks[d]? = some t.marks[d] := Array.getElem?_eq_getElem hlt
  rw [← hsound.closed, path, ← hsound.waiting, hmark]
  rw [hmark] at hmarked
  cases hm : t.marks[d] with
  | unseen => exact absurd (congrArg some hm) hmarked
  | waiting => simp
  | closed => simp

/-! ## Edges that run back -/

/-- When the first vertex is closed, the second one is still on the stack. -/
def Back (out : Array (List Nat)) (v d : Nat) : Prop :=
  ∃ t rest, Reached out t ∧ t.stack = (v, []) :: rest ∧ d ∈ t.path

theorem Reached.back_iff (hout : Closed out) (h : Reached out t) {v d : Nat}
    {rest : List (Nat × List Nat)} (hstack : t.stack = (v, []) :: rest) :
    Back out v d ↔ d ∈ t.path := by
  refine ⟨fun ⟨u, rest', hu, hstack', hd⟩ => ?_, fun hd => ⟨t, rest, h, hstack, hd⟩⟩
  rw [h.eq_of_closing hout hu hstack hstack']
  exact hd

/-- While a vertex is on top of the stack, the stack below it is as it will be when the vertex is
closed. -/
theorem Reached.back_iff_of_top (hout : Closed out) (h : Reached out t) {v d : Nat}
    {ds : List Nat} {rest : List (Nat × List Nat)} (hstack : t.stack = (v, ds) :: rest) :
    Back out v d ↔ d ∈ t.path := by
  have hpath : t.path = [] ++ v :: rest.map Prod.fst := by rw [path, hstack]; rfl
  have hnil : (run out).path = [] := by rw [path, (resting_run hout).stack]; rfl
  rcases (h.later_run hout).exists_closing hpath with ⟨above, habove⟩ | hclosing
  · rw [hnil] at habove
    simp at habove
  · obtain ⟨c, below, hc, hclosed, hbelow⟩ := hclosing
    rw [(h.later hc).back_iff hout hclosed, hpath, path, hclosed, List.map_cons, hbelow]
    rfl

open Classical in
/-- The step that looks at an edge counts it if its destination will still be on the stack when its
source is closed. -/
theorem Reached.backEdges_step (hout : Closed out) (h : Reached out t) {v d : Nat}
    {ds : List Nat} {rest : List (Nat × List Nat)} (hstack : t.stack = (v, d :: ds) :: rest) :
    (t.step out).backEdges = t.backEdges + if Back out v d then 1 else 0 := by
  have hwaiting : Back out v d ↔ t.marks[d]? = some .waiting :=
    (h.back_iff_of_top hout hstack).trans ((h.sound hout).waiting d).symm
  rw [if_congr hwaiting rfl rfl, Traversal.step, hstack]
  dsimp only
  split
  · next hd => rw [if_neg (by simp [hd])]; rfl
  · next hd => rw [if_pos hd]
  · next hd => rw [if_neg (by simp [hd])]; rfl
  · next hd => rw [if_neg (by simp [hd])]; rfl

open Classical in
/-- The edges that run back among those that have not been looked at yet. -/
noncomputable def owed (out : Array (List Nat)) (t : Traversal) : Nat :=
  (∑ v ∈ Finset.range out.size,
    if t.marks[v]? = some .unseen then (successorsIn out v).countP (Back out v) else 0) +
  (t.stack.map fun f => f.2.countP (Back out f.1)).sum

open Classical in
theorem owed_push (h : t.marks.size = out.size) {w : Nat} (hw : t.marks[w]? = some .unseen) :
    (t.push out w).owed out = t.owed out := by
  have hsum := sum_unseen_mark h hw fun v => (successorsIn out v).countP (Back out v)
  unfold owed Traversal.push
  simp only [List.map_cons, List.sum_cons]
  omega

/-- Closing a vertex leaves the unseen vertices as they were. -/
theorem Sound.unseen_step (h : t.Sound out) {v : Nat} {rest : List (Nat × List Nat)}
    (hstack : t.stack = (v, []) :: rest) (w : Nat) :
    (t.step out).marks[w]? = some .unseen ↔ t.marks[w]? = some .unseen := by
  have hwaiting : t.marks[v]? = some .waiting := (h.waiting v).mpr (by simp [hstack])
  have hmarks : (t.step out).marks = t.marks.setIfInBounds v .closed := by
    rw [Traversal.step, hstack]
  rw [hmarks, getElem?_set_of_lt (lt_of_marked hwaiting)]
  split
  · next heq => simp [← heq, hwaiting]
  · rfl

open Classical in
/-- A step counts what is owed for the edge that it looks at. -/
theorem Reached.backEdges_add_owed_step (hout : Closed out) (h : Reached out t)
    (hstack : t.stack ≠ []) :
    (t.step out).backEdges + (t.step out).owed out = t.backEdges + t.owed out := by
  have hsound := h.sound hout
  match hcase : t.stack with
  | [] => exact absurd hcase hstack
  | (v, []) :: rest =>
      have hbelow : (t.step out).stack = rest := by rw [Traversal.step, hcase]
      have hsame : (t.step out).backEdges = t.backEdges := by rw [Traversal.step, hcase]
      simp [owed, hsound.unseen_step hcase, hbelow, hsame, hcase]
  | (v, d :: ds) :: rest =>
      -- the top frame owes less by what is counted for its next edge
      have hdrop : owed out { t with stack := (v, ds) :: rest, steps := t.steps + 1 } +
          (if Back out v d then 1 else 0) = t.owed out := by
        simp only [owed, hcase, List.map_cons, List.sum_cons, List.countP_cons, decide_eq_true_eq]
        omega
      have hnext : (t.step out).owed out =
          owed out { t with stack := (v, ds) :: rest, steps := t.steps + 1 } := by
        rw [Traversal.step, hcase]
        dsimp only
        split
        · next hd => exact owed_push (by exact hsound.size) hd
        all_goals rfl
      have hcount := h.backEdges_step hout hcase
      omega

open Classical in
theorem Reached.backEdges_add_owed (hout : Closed out) (h : Reached out t) :
    t.backEdges + t.owed out =
      ∑ v ∈ Finset.range out.size, (successorsIn out v).countP (Back out v) := by
  induction h with
  | refl =>
      refine (Nat.zero_add _).trans ((Nat.add_zero _).trans (Finset.sum_congr rfl fun v hv => ?_))
      exact if_pos (Array.getElem?_replicate.trans (if_pos (Finset.mem_range.mp hv)))
  | @tail t u ht hnext ih =>
      cases hnext with
      | root _ hv =>
          rw [owed_push (Reached.sound hout ht).size hv]
          exact ih
      | step hstack => exact (Reached.backEdges_add_owed_step hout ht hstack).trans ih

open Classical in
/-- The run counts every edge that runs back, once. -/
theorem backEdges_run (hout : Closed out) :
    (run out).backEdges =
      ∑ v ∈ Finset.range out.size, (successorsIn out v).countP (Back out v) := by
  have hnone : (run out).owed out = 0 := by
    rw [owed, (resting_run hout).stack, List.map_nil, List.sum_nil, Nat.add_zero]
    exact Finset.sum_eq_zero fun v _ => if_neg (marks_run_ne_unseen hout v)
  rw [← (reached_run hout).backEdges_add_owed hout, hnone, Nat.add_zero]

/-! ## Cycles -/

def Forward (out : Array (List Nat)) (v d : Nat) : Prop := Follows out v d ∧ ¬Back out v d

/-- An edge that does not run back leads to a later place in the order of the run. -/
theorem Forward.idxOf_lt (hout : Closed out) {v d : Nat} (h : Forward out v d) :
    (run out).order.idxOf v < (run out).order.idxOf d := by
  obtain ⟨hfollows, hback⟩ := h
  obtain ⟨t, rest, ht, hstack⟩ := exists_closing_run hout (lt_of_follows hfollows)
  have hd : d ∈ t.order :=
    (ht.mem_order_iff hout hstack hfollows).mpr fun hd => hback ⟨t, rest, ht, hstack, hd⟩
  obtain ⟨later, horder⟩ := ht.order_run_eq hout hstack
  have hnodup : (later ++ v :: t.order).Nodup :=
    horder ▸ (perm_order_run hout).nodup_iff.mpr List.nodup_range
  obtain ⟨-, htail, hdisjoint⟩ := List.nodup_append.mp hnodup
  have hv : v ∉ later := fun hmem => hdisjoint v hmem v List.mem_cons_self rfl
  have hlater : d ∉ later := fun hmem => hdisjoint d hmem d (List.mem_cons_of_mem _ hd) rfl
  have hne : v ≠ d := fun heq => (List.nodup_cons.mp htail).1 (heq ▸ hd)
  rw [horder, List.idxOf_append_of_notMem hv, List.idxOf_append_of_notMem hlater,
    List.idxOf_cons_self, List.idxOf_cons_ne _ hne]
  omega

theorem idxOf_lt_of_transGen_forward (hout : Closed out) {v d : Nat}
    (h : Relation.TransGen (Forward out) v d) :
    (run out).order.idxOf v < (run out).order.idxOf d := by
  induction h with
  | single hforward => exact hforward.idxOf_lt hout
  | tail _ hforward ih => exact ih.trans (hforward.idxOf_lt hout)

/-- The edges that do not run back form no cycle. -/
theorem not_transGen_forward (hout : Closed out) (v : Nat) : ¬Relation.TransGen (Forward out) v v :=
  fun h => lt_irrefl _ (idxOf_lt_of_transGen_forward hout h)

/-- What is on the stack leads to its top. -/
theorem leadsTo_of_back (hout : Closed out) {v d : Nat} (hback : Back out v d) :
    LeadsTo out d v := by
  obtain ⟨t, rest, ht, hstack, hd⟩ := hback
  have hchain := (ht.sound hout).chain
  rw [hstack, List.map_cons] at hchain
  rw [path, hstack, List.map_cons] at hd
  exact leadsTo_of_chain hchain d hd

/-- An edge that runs back closes a cycle. -/
theorem transGen_of_back (hout : Closed out) {v d : Nat} (hfollows : Follows out v d)
    (hback : Back out v d) : Relation.TransGen (Follows out) v v :=
  .head' hfollows (leadsTo_of_back hout hback)

theorem backEdges_run_eq_zero_iff (hout : Closed out) :
    (run out).backEdges = 0 ↔ ∀ v, ¬Relation.TransGen (Follows out) v v := by
  classical
  rw [backEdges_run hout, Finset.sum_eq_zero_iff]
  simp only [List.countP_eq_zero, decide_eq_true_eq]
  constructor
  · intro hnone v hcycle
    have hforward : Follows out ≤ Forward out := fun a b hab =>
      ⟨hab, hnone a (Finset.mem_range.mpr (lt_of_follows hab)) b hab⟩
    exact not_transGen_forward hout v (Relation.TransGen.mono hforward v v hcycle)
  · intro hacyclic v _ d hd hback
    exact hacyclic v (transGen_of_back hout hd hback)

end Traversal

end PathForecast
