import Mathlib
import PathForecast.Proofs.Coherence
import PathForecast.Proofs.Interleaving

/-!
# Passages

What a step adds to a graph can be told without handles: it arrives at an identity, along a pair of
identities, or it counts the transaction. A graph that has recorded a list of passages has, up to
the names of its vertices and edges, nothing but the counts of that list, so it does not matter in
which order the passages were made. Main statements: `Recorded.enter`, `Recorded.move` and
`Recorded.count`, what one step records.
-/

set_option autoImplicit false

namespace PathForecast

/-! ## Steps without handles -/

/-- What a step does, told by identities. -/
inductive Passage where
  | entry
  | leg (source dest : VertexState)
  | counted
deriving DecidableEq

def Passage.arrival? : Passage → Option VertexState
  | .entry => some .start
  | .leg _ dest => some dest
  | .counted => none

def Passage.link? : Passage → Option (VertexState × VertexState)
  | .leg source dest => some (source, dest)
  | _ => none

def arrivals (J : List Passage) : List VertexState := J.filterMap (·.arrival?)

def crossings (J : List Passage) : List (VertexState × VertexState) := J.filterMap (·.link?)

theorem arrivals_append (J J' : List Passage) : arrivals (J ++ J') = arrivals J ++ arrivals J' :=
  List.filterMap_append

theorem crossings_append (J J' : List Passage) :
    crossings (J ++ J') = crossings J ++ crossings J' := List.filterMap_append

/-- The passages of the steps of a transaction that has reached an identity. -/
def passages (usePast aborted : Bool) : VertexState → List Step → List Passage
  | _, [] => []
  | s, .enter :: rest => .entry :: passages usePast aborted s rest
  | s, .follow visit :: rest =>
      let d : VertexState := .query (visit.key.identity usePast)
      .leg s d :: passages usePast aborted d rest
  | s, .leave :: rest => .leg s (.ending aborted) :: passages usePast aborted s rest
  | s, .count :: rest => .counted :: passages usePast aborted s rest

/-- The passages of all accepted traces, one transaction after the other. -/
def script (p : Procedure) (usePast : Bool) (ts : List (TransactionTrace × Estimator)) :
    List Passage :=
  (admitted p ts).flatMap fun s => passages usePast s.trace.aborted .start s.pending

theorem script_perm (p : Procedure) (usePast : Bool) {ts ts' : List (TransactionTrace × Estimator)}
    (h : ts'.Perm ts) : (script p usePast ts').Perm (script p usePast ts) :=
  (h.filterMap _).flatMap_right _

def VertexState.markers : List VertexState := [.start, .commit, .abort]

/-- The identities and the pairs of identities of a list of passages have a handle each. -/
structure Roomy (J : List Passage) : Prop where
  vertices : (VertexState.markers ++ arrivals J).dedup.length ≤ UInt32.size
  edges : (crossings J).dedup.length ≤ UInt32.size

theorem Roomy.of_perm {J J' : List Passage} (hJ : Roomy J) (h : J'.Perm J) : Roomy J' where
  vertices := by
    have harrivals : (arrivals J').Perm (arrivals J) := h.filterMap _
    rw [(harrivals.append_left VertexState.markers).dedup.length_eq]
    exact hJ.vertices
  edges := by
    have hcrossings : (crossings J').Perm (crossings J) := h.filterMap _
    rw [hcrossings.dedup.length_eq]
    exact hJ.edges

/-- The count of a vertex or an edge that has been hit `n` times since it was made. -/
def recorded (n : Nat) : HitCount := HitCount.record^[n] .zero

theorem recorded_count_concat {β : Type} [BEq β] [LawfulBEq β] (l : List β) (a b : β)
    [Decidable (a = b)] :
    recorded ((l ++ [a]).count b) =
      if a = b then (recorded (l.count b)).record else recorded (l.count b) := by
  rw [List.count_append, List.count_singleton]
  by_cases hab : a = b
  · rw [if_pos (by simpa using hab), if_pos hab]
    exact Function.iterate_succ_apply' HitCount.record _ .zero
  · rw [if_neg (by simpa using hab), if_neg hab]
    rfl

namespace Graph

variable {α : Type} [Weight α]

/-! ## Recorded passages -/

/-- The counts of a graph are those of a list of passages. -/
structure Recorded (g : Graph α) (J : List Passage) : Prop where
  visits : ∀ v s, g.place? v = some s → g.vertexHits v = recorded ((arrivals J).count s)
  crossed : ∀ v w s d, g.place? v = some s → g.place? w = some d →
    g.edgeHits v w = recorded ((crossings J).count (s, d))
  joined : ∀ v w s d, g.place? v = some s → g.place? w = some d →
    ((g.edgeBetween v w).isSome ↔ (s, d) ∈ crossings J)
  present : ∀ s ∈ arrivals J, ∃ v, g.place? v = some s
  departed : ∀ l ∈ crossings J, ∃ v, g.place? v = some l.1
  /-- A query vertex is there because a transaction has arrived at it. -/
  arrived : ∀ v key, g.place? v = some (.query key) → .query key ∈ arrivals J
  transactionCount : g.transactionCount = (J.count .counted).toUInt64
  /-- No recompute has given an edge a probability yet. -/
  unweighted : ∀ e ∈ g.edges, e.probability = 0

theorem arrives_of_crosses {J : List Passage} {s d : VertexState} (h : (s, d) ∈ crossings J) :
    d ∈ arrivals J := by
  obtain ⟨q, hq, hlink⟩ := List.mem_filterMap.mp h
  cases q with
  | leg s' d' =>
      cases hlink
      exact List.mem_filterMap.mpr ⟨_, hq, rfl⟩
  | _ => cases hlink

namespace Recorded

variable {g k : Graph α} {J : List Passage}

theorem perm (hJ : g.Recorded J) {J' : List Passage} (h : J.Perm J') : g.Recorded J' := by
  have harrivals : (arrivals J).Perm (arrivals J') := h.filterMap _
  have hcrossings : (crossings J).Perm (crossings J') := h.filterMap _
  constructor
  case visits =>
    intro v s hs
    rw [← harrivals.count_eq]
    exact hJ.visits v s hs
  case crossed =>
    intro v w s d hs hd
    rw [← hcrossings.count_eq]
    exact hJ.crossed v w s d hs hd
  case joined =>
    intro v w s d hs hd
    rw [← hcrossings.mem_iff]
    exact hJ.joined v w s d hs hd
  case present => exact fun s hs => hJ.present s (harrivals.mem_iff.mpr hs)
  case departed => exact fun l hl => hJ.departed l (hcrossings.mem_iff.mpr hl)
  case arrived => exact fun v key hkey => harrivals.mem_iff.mp (hJ.arrived v key hkey)
  case transactionCount =>
    rw [← h.count_eq]
    exact hJ.transactionCount
  case unweighted => exact hJ.unweighted

theorem place_mem (hJ : g.Recorded J) {v : VertexId} {s : VertexState}
    (h : g.place? v = some s) : s ∈ VertexState.markers ++ arrivals J := by
  obtain ⟨s', -, rfl⟩ := Option.map_eq_some_iff.mp h
  cases s' with
  | query key => exact List.mem_append_right _ (hJ.arrived v _ h)
  | _ => exact List.mem_append_left _ (by simp [VertexState.identity, VertexState.markers])

/-- What a vertex of a later graph counted before. -/
theorem vertexHits_before (hJ : g.Recorded J) (h : Growth g k) (hk : k.Catalogued) {v : VertexId}
    {s : VertexState} (hs : k.place? v = some s) :
    g.vertexHits v = recorded ((arrivals J).count s) := by
  cases hplace : g.place? v with
  | some x =>
      have hkeep := h.place? hplace
      rw [hs, Option.some.injEq] at hkeep
      exact hJ.visits v s (hkeep ▸ hplace)
  | none =>
      -- the vertex is new, and so is its identity
      have hcount : (arrivals J).count s = 0 := by
        refine List.count_eq_zero.mpr fun hmem => ?_
        obtain ⟨w, hw⟩ := hJ.present s hmem
        rw [hk.single v w s hs (h.place? hw), hw] at hplace
        cases hplace
      have hvertex : g.vertex? v = none := by
        simpa [place?, state?] using hplace
      rw [hcount, vertexHits, hvertex]
      rfl

/-- What a pair of vertices of a later graph counted before, and whether it was joined. -/
theorem edge_before (hJ : g.Recorded J) (hg : g.Coherent) (h : Growth g k) (hk : k.Catalogued)
    {v w : VertexId} {s d : VertexState} (hs : k.place? v = some s) (hd : k.place? w = some d) :
    g.edgeHits v w = recorded ((crossings J).count (s, d)) ∧
      ((g.edgeBetween v w).isSome ↔ (s, d) ∈ crossings J) := by
  by_cases hold : (∃ x, g.place? v = some x) ∧ ∃ y, g.place? w = some y
  · obtain ⟨⟨x, hx⟩, y, hy⟩ := hold
    have hkeep := h.place? hx
    have hkeep' := h.place? hy
    rw [hs, Option.some.injEq] at hkeep
    rw [hd, Option.some.injEq] at hkeep'
    exact ⟨hJ.crossed v w s d (hkeep ▸ hx) (hkeep' ▸ hy),
      hJ.joined v w s d (hkeep ▸ hx) (hkeep' ▸ hy)⟩
  · -- an end is new, so nothing has crossed there yet
    have hopen : ¬(g.edgeBetween v w).isSome = true := fun hjoined =>
      hold (hg.places_of_joined hjoined)
    have hnone : (s, d) ∉ crossings J := by
      intro hmem
      obtain ⟨v', hv'⟩ := hJ.departed _ hmem
      obtain ⟨w', hw'⟩ := hJ.present d (arrives_of_crosses hmem)
      have hv := hk.single v v' s hs (h.place? hv')
      have hw := hk.single w w' d hd (h.place? hw')
      exact hold ⟨⟨s, hv ▸ hv'⟩, d, hw ▸ hw'⟩
    refine ⟨?_, iff_of_false hopen hnone⟩
    rw [List.count_eq_zero.mpr hnone, edgeHits, Option.not_isSome_iff_eq_none.mp hopen]
    rfl

theorem enter (hJ : g.Recorded J) (hg : g.Coherent) (sample : SampleKey) (elapsed : UInt64) :
    (g.enter sample elapsed).Recorded (J ++ [.entry]) := by
  have hlayout := layout_enter g sample elapsed
  have hplace : ∀ v, (g.enter sample elapsed).place? v = g.place? v := place?_of_layout hlayout
  have hstart : g.place? Markers.fixed.start = some .start :=
    place?_eq (hg.marked.start hg.seeded)
  have harrivals : arrivals (J ++ [.entry]) = arrivals J ++ [.start] := arrivals_append J _
  have hcrossings : crossings (J ++ [.entry]) = crossings J :=
    (crossings_append J _).trans (List.append_nil _)
  constructor
  case visits =>
    intro v s hs
    rw [hplace] at hs
    rw [harrivals, recorded_count_concat, vertexHits_enter hg.marked hg.seeded, hJ.visits v s hs]
    refine if_congr ⟨fun hv => ?_, fun heq => ?_⟩ rfl rfl
    · rw [← hv, hstart] at hs
      exact Option.some.inj hs
    · exact hg.catalogued.single _ _ _ hstart (heq ▸ hs)
  case crossed =>
    intro v w s d hs hd
    rw [hplace] at hs hd
    rw [hcrossings, edgeHits_enter]
    exact hJ.crossed v w s d hs hd
  case joined =>
    intro v w s d hs hd
    rw [hplace] at hs hd
    rw [hcrossings, edgeBetween_of_layout hlayout]
    exact hJ.joined v w s d hs hd
  case present =>
    intro s hs
    simp only [hplace]
    rw [harrivals] at hs
    rcases List.mem_append.mp hs with hs | hs
    · exact hJ.present s hs
    · rw [List.mem_singleton.mp hs]
      exact ⟨_, hstart⟩
  case departed =>
    intro l hl
    simp only [hplace]
    exact hJ.departed l (hcrossings ▸ hl)
  case arrived =>
    intro v key hkey
    rw [hplace] at hkey
    rw [harrivals]
    exact List.mem_append_left _ (hJ.arrived v key hkey)
  case transactionCount =>
    rw [List.count_append]
    exact hJ.transactionCount
  case unweighted => exact hJ.unweighted

theorem count (hJ : g.Recorded J) : g.countTransaction.Recorded (J ++ [.counted]) := by
  have harrivals : arrivals (J ++ [.counted]) = arrivals J :=
    (arrivals_append J _).trans (List.append_nil _)
  have hcrossings : crossings (J ++ [.counted]) = crossings J :=
    (crossings_append J _).trans (List.append_nil _)
  constructor
  case visits => exact harrivals ▸ hJ.visits
  case crossed => exact hcrossings ▸ hJ.crossed
  case joined => exact hcrossings ▸ hJ.joined
  case present => exact harrivals ▸ hJ.present
  case departed => exact hcrossings ▸ hJ.departed
  case arrived => exact harrivals ▸ hJ.arrived
  case transactionCount =>
    rw [List.count_append, List.count_singleton_self]
    show g.transactionCount + 1 = _
    rw [hJ.transactionCount]
    exact (UInt64.ofNat_add _ 1).symm
  case unweighted => exact hJ.unweighted

/-- A step from one vertex to another records the pair of their identities. -/
theorem move (hJ : g.Recorded J) (hg : g.Coherent) (hk : k.Coherent) {source dest : VertexId}
    {s d : VertexState} (hmove : Move g k source dest) (hs : g.place? source = some s)
    (hd : k.place? dest = some d)
    (hnew : ∀ v x, k.place? v = some x → g.place? v = some x ∨ v = dest)
    (hunweighted : ∀ e ∈ k.edges, e.probability = 0) : k.Recorded (J ++ [.leg s d]) := by
  have hs' := hmove.growth.place? hs
  have hsingle := hk.catalogued.single
  have harrivals : arrivals (J ++ [.leg s d]) = arrivals J ++ [d] := arrivals_append J _
  have hcrossings : crossings (J ++ [.leg s d]) = crossings J ++ [(s, d)] := crossings_append J _
  -- vertices are the ends of the step if their identities are
  have hpair : ∀ v w x y, k.place? v = some x → k.place? w = some y →
      ((source = v ∧ dest = w) ↔ (s, d) = (x, y)) := by
    intro v w x y hv hw
    constructor
    · rintro ⟨rfl, rfl⟩
      rw [hs', Option.some.injEq] at hv
      rw [hd, Option.some.injEq] at hw
      rw [hv, hw]
    · intro heq
      obtain ⟨rfl, rfl⟩ := Prod.mk.inj heq
      exact ⟨hsingle _ _ _ hs' hv, hsingle _ _ _ hd hw⟩
  constructor
  case visits =>
    intro v x hv
    rw [harrivals, recorded_count_concat, hmove.vertexHits,
      hJ.vertexHits_before hmove.growth hk.catalogued hv]
    refine if_congr ⟨fun hdest => ?_, fun heq => ?_⟩ rfl rfl
    · rw [← hdest, hd] at hv
      exact Option.some.inj hv
    · exact hsingle _ _ _ hd (heq ▸ hv)
  case crossed =>
    intro v w x y hv hw
    rw [hcrossings, recorded_count_concat, hmove.edgeHits,
      (hJ.edge_before hg hmove.growth hk.catalogued hv hw).1]
    exact if_congr (hpair v w x y hv hw) rfl rfl
  case joined =>
    intro v w x y hv hw
    rw [hmove.joined, hcrossings, List.mem_append, List.mem_singleton,
      (hJ.edge_before hg hmove.growth hk.catalogued hv hw).2, Prod.mk.injEq, eq_comm (a := v),
      eq_comm (a := w), hpair v w x y hv hw, eq_comm]
  case present =>
    intro x hx
    rw [harrivals] at hx
    rcases List.mem_append.mp hx with hx | hx
    · obtain ⟨v, hv⟩ := hJ.present x hx
      exact ⟨v, hmove.growth.place? hv⟩
    · rw [List.mem_singleton.mp hx]
      exact ⟨dest, hd⟩
  case departed =>
    intro l hl
    rw [hcrossings] at hl
    rcases List.mem_append.mp hl with hl | hl
    · obtain ⟨v, hv⟩ := hJ.departed l hl
      exact ⟨v, hmove.growth.place? hv⟩
    · rw [List.mem_singleton.mp hl]
      exact ⟨source, hs'⟩
  case arrived =>
    intro v key hkey
    rw [harrivals]
    rcases hnew v _ hkey with hv | rfl
    · exact List.mem_append_left _ (hJ.arrived v key hv)
    · rw [hd, Option.some.injEq] at hkey
      rw [hkey]
      exact List.mem_append_right _ (List.mem_singleton_self _)
  case transactionCount =>
    rw [List.count_append, hmove.transactionCount]
    exact hJ.transactionCount
  case unweighted => exact hunweighted

end Recorded

theorem recorded_fresh (p : Procedure) (s : ModelSettings α) : (Graph.fresh p s).Recorded [] where
  visits v _ _ := vertexHits_fresh p s v
  crossed v w _ _ _ _ := by
    rw [edgeHits, edgeBetween_fresh]
    rfl
  joined v w _ _ _ _ := by
    rw [edgeBetween_fresh]
    exact iff_of_false Bool.false_ne_true List.not_mem_nil
  present _ hs := absurd hs List.not_mem_nil
  departed _ hl := absurd hl List.not_mem_nil
  arrived v key hkey := by
    obtain ⟨state, hstate, hidentity⟩ := Option.map_eq_some_iff.mp hkey
    cases state with
    | query k => exact (allKeys_fresh (P := fun _ => False) p s v k hstate).elim
    | _ => cases hidentity
  transactionCount := rfl
  unweighted _ he := absurd he (Array.not_mem_empty _)

namespace Recorded

variable {g : Graph α} {J total : List Passage}

theorem places_subset (hJ : g.Recorded J) (hg : g.Coherent) (hsub : J ⊆ total) :
    g.places ⊆ VertexState.markers ++ arrivals total := by
  intro s hs
  obtain ⟨v, hv⟩ := (hg.mem_places_iff s).mp hs
  rcases List.mem_append.mp (hJ.place_mem hv) with hs | hs
  · exact List.mem_append_left _ hs
  · obtain ⟨q, hq, harrival⟩ := List.mem_filterMap.mp hs
    exact List.mem_append_right _ (List.mem_filterMap.mpr ⟨q, hsub hq, harrival⟩)

theorem links_subset (hJ : g.Recorded J) (hg : g.Coherent) (hsub : J ⊆ total) :
    g.links ⊆ crossings total := by
  rintro ⟨s, d⟩ hl
  obtain ⟨v, w, hv, hw, hjoined⟩ := (hg.mem_links_iff s d).mp hl
  obtain ⟨q, hq, hlink⟩ := List.mem_filterMap.mp ((hJ.joined v w s d hv hw).mp hjoined)
  exact List.mem_filterMap.mpr ⟨q, hsub hq, hlink⟩

theorem unweighted_traverseEdge (hJ : g.Recorded J) (sample : SampleKey) (source dest : VertexId)
    (remaining : UInt64) :
    ∀ e ∈ (g.traverseEdge sample source dest remaining).edges, e.probability = 0 :=
  Weighs.traverseEdge (g := g) (P := fun _ a => a = 0) (fun _ => rfl) hJ.unweighted sample source
    dest remaining

theorem unweighted_follow (hJ : g.Recorded J) (sample : SampleKey) (previous : VertexId)
    (visit : Visit) : ∀ e ∈ (g.follow sample previous visit).1.edges, e.probability = 0 :=
  Weighs.follow (g := g) (P := fun _ a => a = 0) (fun _ => rfl) hJ.unweighted sample previous visit

end Recorded

end Graph

end PathForecast
