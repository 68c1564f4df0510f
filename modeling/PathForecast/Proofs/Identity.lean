import Mathlib.Tactic
import PathForecast.Proofs.Route

/-!
# Identities

What tells query vertices apart is their identity: statement, partitions, index and, where the
settings ask for it, past partitions. Every query vertex is listed in the bucket of its statement,
where a look-up finds it, so no identity is given to two vertices. Main statements:
`Growth.catalogued`, however a graph grows, and `place?_ensureVertex`, a look-up leads to the vertex
of the identity that was asked for.
-/

set_option autoImplicit false

namespace PathForecast

/-- The parts of a key that the identity test looks at. -/
def VertexKey.identity (usePast : Bool) (k : VertexKey) : VertexKey :=
  if usePast then k else { k with past := ∅ }

theorem VertexKey.same_iff_identity (k l : VertexKey) (usePast : Bool) :
    k.same l usePast = true ↔ k.identity usePast = l.identity usePast := by
  obtain ⟨s, p, past, i⟩ := k
  obtain ⟨s', p', past', i'⟩ := l
  rw [VertexKey.same_iff]
  cases usePast with
  | false => simp [identity]
  | true =>
      simp only [identity, if_true, VertexKey.mk.injEq, forall_const]
      tauto

/-- What a state tells of the vertex that stands for it. -/
def VertexState.identity (usePast : Bool) : VertexState → VertexState
  | .query k => .query (k.identity usePast)
  | s => s

theorem VertexState.hasKey_iff_identity (s : VertexState) (key : VertexKey) (usePast : Bool) :
    s.hasKey key usePast = true ↔ s.identity usePast = .query (key.identity usePast) := by
  cases s with
  | query k =>
      simp only [identity, VertexState.query.injEq]
      exact k.same_iff_identity key usePast
  | _ => simp [hasKey, identity]

namespace Graph

variable {α : Type}

def place? (g : Graph α) (v : VertexId) : Option VertexState :=
  (g.state? v).map (·.identity g.settings.usePastPartitions)

theorem place?_eq {g : Graph α} {v : VertexId} {s : VertexState} (h : g.state? v = some s) :
    g.place? v = some (s.identity g.settings.usePastPartitions) := by
  rw [place?, h, Option.map_some]

theorem holds_iff_place? (g : Graph α) (v : VertexId) (key : VertexKey) :
    g.Holds v key ↔ g.place? v = some (.query (key.identity g.settings.usePastPartitions)) := by
  rw [place?, Option.map_eq_some_iff]
  simp only [Holds, VertexState.hasKey_iff_identity]

theorem isSome_state?_iff (g : Graph α) (v : VertexId) :
    (g.state? v).isSome ↔ v.slot < g.vertices.size := by
  rw [state?, Option.isSome_map]
  exact g.isSome_vertex?_iff v

theorem slot_lt_of_state? {g : Graph α} {v : VertexId} {s : VertexState}
    (h : g.state? v = some s) : v.slot < g.vertices.size :=
  (g.isSome_state?_iff v).mp (by rw [h]; rfl)

theorem slot_lt_of_place? {g : Graph α} {v : VertexId} {s : VertexState}
    (h : g.place? v = some s) : v.slot < g.vertices.size := by
  obtain ⟨_, hs, _⟩ := Option.map_eq_some_iff.mp h
  exact slot_lt_of_state? hs

theorem state?_of_layout {g k : Graph α} (h : k.layout = g.layout) (v : VertexId) :
    k.state? v = g.state? v := by
  have hstate : ∀ l : Graph α, l.state? v =
      (l.vertices[v.slot]?.map (·.frame)).map (·.state) := by
    intro l
    rw [Option.map_map]
    rfl
  rw [hstate, hstate, map_frame_of_layout h]

theorem place?_of_layout {g k : Graph α} (h : k.layout = g.layout) (v : VertexId) :
    k.place? v = g.place? v := by
  have hsettings : k.settings = g.settings := congrArg Layout.settings h
  rw [place?, place?, state?_of_layout h, hsettings]

theorem bucket_of_layout {g k : Graph α} (h : k.layout = g.layout) (s : StatementId) :
    k.bucket s = g.bucket s := by
  have hindex : k.index = g.index := congrArg Layout.index h
  rw [bucket, bucket, hindex]

/-- Every query vertex is listed under its statement, and no two vertices have one identity. -/
structure Catalogued (g : Graph α) : Prop where
  listed : ∀ v key, g.state? v = some (.query key) → v ∈ g.bucket key.statement
  single : ∀ v w s, g.place? v = some s → g.place? w = some s → v = w

/-- A look-up that fails tells that there is no such vertex. -/
theorem Catalogued.ne_of_findKey {g : Graph α} (hg : g.Catalogued) {key : VertexKey}
    (h : g.findKey key = none) (v : VertexId) :
    g.place? v ≠ some (.query (key.identity g.settings.usePastPartitions)) := by
  intro hplace
  obtain ⟨s, hs, hidentity⟩ := Option.map_eq_some_iff.mp hplace
  have hkey := (s.hasKey_iff_identity key _).mpr hidentity
  obtain ⟨k, rfl, hsame⟩ := (s.hasKey_iff key _).mp hkey
  have hstatement := ((k.same_iff key _).mp hsame).1
  rw [findKey_eq, Array.find?_eq_none] at h
  refine h v (hstatement ▸ hg.listed v k hs) ?_
  rw [hs]
  exact hkey

variable [Weight α]

/-! ## States after a step -/

theorem state?_pushVertex (g : Graph α) (state : VertexState) (v : VertexId) :
    (g.pushVertex state).state? v =
      if v.slot = g.vertices.size then some state else g.state? v := by
  rw [state?, vertex?, getElem?_pushVertex]
  split
  · rfl
  · rfl

/-- A vertex is as old as the graph, or it is the one that was asked for. -/
theorem state?_ensureVertex {g : Graph α} {key : VertexKey} {v : VertexId} {s : VertexState}
    (h : (g.ensureVertex key).1.state? v = some s) :
    g.state? v = some s ∨
      s = .query key ∧ ((g.ensureVertex key).1.Fits → v = (g.ensureVertex key).2) := by
  cases hfind : g.findKey key with
  | some w =>
      rw [ensureVertex_of_some hfind] at h
      exact .inl h
  | none =>
      rw [ensureVertex_of_none hfind] at h ⊢
      have hpush : (g.pushVertex (.query key)).state? v = some s := h
      rw [state?_pushVertex] at hpush
      split at hpush
      · next hv =>
          refine .inr ⟨(Option.some.inj hpush).symm, fun hfit => VertexId.slot_inj.mp ?_⟩
          have hfitPush : (g.pushVertex (.query key)).Fits := ⟨hfit.vertices, hfit.edges⟩
          exact hv.trans (slot_nextVertex hfitPush).symm
      · exact .inl hpush

theorem state?_pushEdge (g : Graph α) (source dest v : VertexId) :
    (g.pushEdge source dest).state? v = g.state? v := by
  rw [state?, vertex?_pushEdge]
  split
  · rw [Option.map_map]
    rfl
  · rfl

theorem state?_traverseEdge (g : Graph α) (sample : SampleKey) (source dest : VertexId)
    (remaining : UInt64) (v : VertexId) :
    (g.traverseEdge sample source dest remaining).state? v = g.state? v := by
  have hensure : (g.ensureEdge source dest).1.state? v = g.state? v :=
    ensureEdge_keeps (·.state? v) fun _ => g.state?_pushEdge source dest v
  rw [← hensure]
  refine state?_of_layout ((layout_updateEdge _ _ fun e => e.frame_recordHit).trans ?_) v
  exact layout_updateVertex _ _ fun _ => rfl

theorem state?_follow {g : Graph α} {sample : SampleKey} {previous : VertexId} {visit : Visit}
    {v : VertexId} {s : VertexState} (h : (g.follow sample previous visit).1.state? v = some s) :
    g.state? v = some s ∨
      s = .query visit.key ∧ ((g.ensureVertex visit.key).1.Fits →
        v = (g.follow sample previous visit).2) :=
  state?_ensureVertex (((g.ensureVertex visit.key).1.state?_traverseEdge sample previous _
    visit.remaining v).symm.trans h)

def AllKeys (g : Graph α) (P : VertexKey → Prop) : Prop :=
  ∀ v key, g.state? v = some (.query key) → P key

section AllKeys

variable {P : VertexKey → Prop} {g : Graph α}

omit [Weight α] in
theorem AllKeys.of_layout {k : Graph α} (hg : g.AllKeys P) (h : k.layout = g.layout) :
    k.AllKeys P := by
  intro v key hv
  rw [state?_of_layout h] at hv
  exact hg v key hv

theorem AllKeys.follow (hg : g.AllKeys P) (sample : SampleKey) (previous : VertexId)
    {visit : Visit} (hvisit : P visit.key) : (g.follow sample previous visit).1.AllKeys P := by
  intro v key hv
  rcases state?_follow hv with hv | ⟨hkey, -⟩
  · exact hg v key hv
  · cases hkey
    exact hvisit

theorem AllKeys.walk (hg : g.AllKeys P) (t : TransactionTrace) {visits : List Visit}
    (hvisits : ∀ visit ∈ visits, P visit.key) : (g.walk t visits).1.AllKeys P := by
  refine walk_induction (motive := (·.AllKeys P)) ?enter ?follow ?leave ?count hg
  case enter => exact fun h => h.of_layout (layout_enter _ _ _)
  case follow => exact fun previous visit hvisit h => h.follow _ previous (hvisits visit hvisit)
  case leave =>
    intro g previous h v key hv
    exact h v key ((g.state?_traverseEdge _ _ _ _ v).symm.trans hv)
  case count => exact fun h => h.of_layout (layout_countTransaction _)

theorem AllKeys.learn (hg : g.AllKeys P) {t : TransactionTrace} {estimator : Estimator}
    (hvisits : ∀ visits, t.resolve g.procedure estimator = .ok visits →
      ∀ visit ∈ visits, P visit.key) : (g.perform (.learn t estimator)).AllKeys P := by
  show (g.orUnchanged (g.learn t estimator)).AllKeys P
  cases hlearn : g.learn t estimator with
  | error fault => exact hg
  | ok r =>
      obtain ⟨-, visits, hresolve, rfl⟩ := (learn_eq_ok_iff g t estimator r).mp hlearn
      exact hg.walk t (hvisits visits hresolve)

end AllKeys

/-! ## The catalogue -/

section Catalogue

variable {g : Graph α}

omit [Weight α] in
theorem Catalogued.of_layout {k : Graph α} (hg : g.Catalogued) (h : k.layout = g.layout) :
    k.Catalogued := by
  refine ⟨fun v key hv => ?_, fun v w s hv hw => ?_⟩
  · rw [bucket_of_layout h]
    rw [state?_of_layout h] at hv
    exact hg.listed v key hv
  · rw [place?_of_layout h] at hv hw
    exact hg.single v w s hv hw

theorem state?_pushQuery (g : Graph α) (key : VertexKey) (v : VertexId) :
    (g.pushQuery key).state? v =
      if v.slot = g.vertices.size then some (.query key) else g.state? v :=
  g.state?_pushVertex (.query key) v

theorem bucket_pushQuery (g : Graph α) (key : VertexKey) (s : StatementId) :
    (g.pushQuery key).bucket s =
      if s = key.statement then (g.bucket key.statement).push g.nextVertex else g.bucket s := by
  show ((g.index.insert key.statement _).get? s).getD #[] = _
  rw [Table.get?_insert]
  split <;> rfl

theorem Catalogued.pushQuery (hg : g.Catalogued) {key : VertexKey} (hnew : g.findKey key = none)
    (hfit : (g.pushQuery key).Fits) : (g.pushQuery key).Catalogued := by
  have hpush : (g.pushVertex (.query key)).Fits := ⟨hfit.vertices, hfit.edges⟩
  have hnext := slot_nextVertex hpush
  have hplace : ∀ v, (g.pushQuery key).place? v =
      if v.slot = g.vertices.size then some (.query (key.identity g.settings.usePastPartitions))
      else g.place? v := by
    intro v
    rw [place?, state?_pushQuery]
    split <;> rfl
  refine ⟨fun v k hv => ?_, fun v w s hv hw => ?_⟩
  · rw [state?_pushQuery] at hv
    rw [bucket_pushQuery]
    split at hv
    · next hslot =>
        cases hv
        rw [if_pos rfl, VertexId.slot_inj.mp (hslot.trans hnext.symm)]
        exact Array.mem_push_self
    · have hlisted := hg.listed v k hv
      split
      · next hstatement =>
          rw [hstatement] at hlisted
          exact Array.mem_push_of_mem _ hlisted
      · exact hlisted
  · -- the new vertex has an identity that no older vertex has
    rw [hplace] at hv hw
    have hother := hg.ne_of_findKey hnew
    split at hv
    · next hvslot =>
        cases hv
        split at hw
        · next hwslot => exact VertexId.slot_inj.mp (hvslot.trans hwslot.symm)
        · exact absurd hw (hother w)
    · split at hw
      · cases hw
        exact absurd hv (hother v)
      · exact hg.single v w s hv hw

/-- A graph that has just been seeded has three markers and nothing else. -/
theorem state?_seed (hg : g.Marked) (h : g.seeded = false) {v : VertexId} {s : VertexState}
    (hs : g.seed.state? v = some s) :
    (v.slot = 0 ∧ s = .start) ∨ (v.slot = 1 ∧ s = .commit) ∨ (v.slot = 2 ∧ s = .abort) := by
  have hsize : g.vertices.size = 0 := (hg.unseeded h).1
  have hempty : g.state? v = none := by
    rw [← Option.not_isSome_iff_eq_none, isSome_state?_iff]
    omega
  rw [seed_of_unseeded h] at hs
  have hpush : (((g.pushVertex .start).pushVertex .commit).pushVertex .abort).state? v = some s :=
    hs
  simp only [state?_pushVertex, size_pushVertex, hsize, hempty, Nat.zero_add, Nat.reduceAdd]
    at hpush
  split at hpush
  · next hv => exact .inr (.inr ⟨hv, (Option.some.inj hpush).symm⟩)
  · split at hpush
    · next hv => exact .inr (.inl ⟨hv, (Option.some.inj hpush).symm⟩)
    · split at hpush
      · next hv => exact .inl ⟨hv, (Option.some.inj hpush).symm⟩
      · cases hpush

theorem allKeys_fresh {P : VertexKey → Prop} (p : Procedure) (s : ModelSettings α) :
    (Graph.fresh p s).AllKeys P := by
  intro v key hv
  rcases state?_seed (marked_empty p s) rfl hv with ⟨_, hs⟩ | ⟨_, hs⟩ | ⟨_, hs⟩ <;> cases hs

theorem catalogued_seed (hg : g.Marked) (h : g.seeded = false) : g.seed.Catalogued := by
  refine ⟨fun v key hv => ?_, fun v w s hv hw => VertexId.slot_inj.mp ?_⟩
  · rcases state?_seed hg h hv with ⟨_, hs⟩ | ⟨_, hs⟩ | ⟨_, hs⟩ <;> cases hs
  · obtain ⟨sv, hsv, rfl⟩ := Option.map_eq_some_iff.mp hv
    obtain ⟨sw, hsw, hsame⟩ := Option.map_eq_some_iff.mp hw
    -- the markers are told apart by their kinds
    rcases state?_seed hg h hsv with ⟨hvslot, rfl⟩ | ⟨hvslot, rfl⟩ | ⟨hvslot, rfl⟩ <;>
      rcases state?_seed hg h hsw with ⟨hwslot, rfl⟩ | ⟨hwslot, rfl⟩ | ⟨hwslot, rfl⟩ <;>
      first
        | exact hvslot.trans hwslot.symm
        | cases hsame

/-- However a graph grows, its identities stay apart as long as every slot has a handle. -/
theorem Growth.catalogued {k : Graph α} (h : Growth g k) :
    g.Marked → (g.Fits → g.Catalogued) → k.Fits → k.Catalogued := by
  induction h with
  | retain h => exact fun _ hg hk => (hg ((Growth.retain h).fits hk)).of_layout h
  | remember =>
      intro _ hg hk
      have hgraph := hg ⟨hk.vertices, hk.edges⟩
      exact ⟨hgraph.listed, hgraph.single⟩
  | markers h => exact fun hmarked _ _ => catalogued_seed hmarked h
  | query key hseeded hdeclared hnew =>
      intro _ hg hk
      exact (hg ((Growth.query key hseeded hdeclared hnew).fits hk)).pushQuery hnew hk
  | @edge g source dest hs hd hnew =>
      intro _ hg hk
      have hgraph := hg ((Growth.edge source dest hs hd hnew).fits hk)
      have hstate := g.state?_pushEdge source dest
      refine ⟨fun v key hv => hgraph.listed v key ((hstate v).symm.trans hv), fun v w s hv hw => ?_⟩
      rw [place?, hstate] at hv hw
      exact hgraph.single v w s hv hw
  | trans h₁ _ ih₁ ih₂ => exact fun hmarked hg => ih₂ (h₁.marked hmarked) (ih₁ hmarked hg)

theorem Growth.place? {k : Graph α} (h : Growth g k) {v : VertexId} {s : VertexState}
    (hs : g.place? v = some s) : k.place? v = some s := by
  obtain ⟨s', hs', rfl⟩ := Option.map_eq_some_iff.mp hs
  rw [place?_eq (h.state? hs'), h.settings_eq]

/-- The vertex of an identity has that identity. -/
theorem place?_ensureVertex (g : Graph α) (key : VertexKey)
    (hfit : (g.ensureVertex key).1.Fits) :
    (g.ensureVertex key).1.place? (g.ensureVertex key).2 =
      some (.query (key.identity g.settings.usePastPartitions)) := by
  have hsettings : (g.ensureVertex key).1.settings = g.settings :=
    ensureVertex_keeps (·.settings) rfl
  obtain ⟨s, hs, hkey⟩ := holds_ensureVertex key hfit
  rw [place?_eq hs, (s.hasKey_iff_identity key _).mp hkey, hsettings]

end Catalogue

end Graph

end PathForecast
