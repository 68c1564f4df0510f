import PathForecast.Proofs.Conservation
import PathForecast.Proofs.Identity

/-!
# The statement index

A look-up scans one bucket of the index and trusts it to hold every vertex of its statement. In a
graph that has grown it does: a new vertex enters the arena and its bucket in one step, and the
look-up that comes before tells that its identity is new. Main statements: `Growth.indexed`, however
a graph grows, index and arena agree, and `reachable_index`, what that means for look-ups and sizes.
-/

set_option autoImplicit false

namespace PathForecast

/-- Two keys agree in everything that the settings count as identity. -/
def VertexKey.Agrees (usePast : Bool) (k l : VertexKey) : Prop :=
  k.statement = l.statement ∧ k.partitions = l.partitions ∧ k.index = l.index ∧
    (usePast = true → k.past = l.past)

namespace Graph

variable {α : Type}

/-- Every bucket lists the query vertices of its statement, oldest first, and there are buckets for
all of them. -/
structure Indexed (g : Graph α) : Prop where
  mem_bucket : ∀ s v, v ∈ g.bucket s ↔ ∃ key, g.state? v = some (.query key) ∧ key.statement = s
  ascending : ∀ s, (g.bucket s).toList.Pairwise fun v w => v.slot < w.slot
  declared : g.AllKeys fun key => g.procedure.declares key.statement = true

theorem indexed_empty (p : Procedure) (s : ModelSettings α) : (Graph.empty p s).Indexed where
  mem_bucket s v := by
    constructor
    · intro hv
      cases Array.mem_toList_iff.mpr hv
    · rintro ⟨key, hkey, -⟩
      cases hkey
  ascending s := List.Pairwise.nil
  declared v key hkey := by cases hkey

/-- A look-up finds the vertex of an identity if there is one. -/
theorem Catalogued.findKey_eq_some_iff {g : Graph α} (hg : g.Catalogued) (key : VertexKey)
    (v : VertexId) :
    g.findKey key = some v ↔
      ∃ k, g.state? v = some (.query k) ∧ k.Agrees g.settings.usePastPartitions key := by
  have hagrees : ∀ w, (∃ k, g.state? w = some (.query k) ∧
      k.Agrees g.settings.usePastPartitions key) ↔ g.Holds w key := by
    intro w
    constructor
    · rintro ⟨k, hk, hkey⟩
      exact ⟨.query k, hk, (k.same_iff key _).mpr hkey⟩
    · intro hw
      obtain ⟨k, hk, hsame⟩ := hw.query
      exact ⟨k, hk, (k.same_iff key _).mp hsame⟩
  have hplace := fun w => g.holds_iff_place? w key
  have hfound : ∀ w, g.findKey key = some w → g.Holds w key := by
    intro w hw
    rw [findKey_eq] at hw
    have hkey := Array.find?_some hw
    exact (Option.any_eq_true _ _).mp hkey
  rw [hagrees]
  refine ⟨hfound v, fun hv => ?_⟩
  cases hfind : g.findKey key with
  | none => exact absurd ((hplace v).mp hv) (hg.ne_of_findKey hfind v)
  | some w =>
      rw [hg.single w v _ ((hplace w).mp (hfound w hfind)) ((hplace v).mp hv)]

namespace Indexed

variable {g k : Graph α}

theorem of_layout (hg : g.Indexed) (h : k.layout = g.layout) : k.Indexed where
  mem_bucket s v := by
    rw [bucket_of_layout h, state?_of_layout h]
    exact hg.mem_bucket s v
  ascending s := by
    rw [bucket_of_layout h]
    exact hg.ascending s
  declared := by
    have hprocedure : k.procedure = g.procedure := congrArg Layout.procedure h
    rw [hprocedure]
    exact hg.declared.of_layout h

theorem slot_lt (hg : g.Indexed) {s : StatementId} {v : VertexId} (hv : v ∈ g.bucket s) :
    v.slot < g.vertices.size := by
  obtain ⟨key, hkey, -⟩ := (hg.mem_bucket s v).mp hv
  exact slot_lt_of_state? hkey

theorem nodup_bucket (hg : g.Indexed) (s : StatementId) : (g.bucket s).toList.Nodup :=
  (hg.ascending s).imp fun hlt heq => Nat.ne_of_lt hlt (congrArg VertexId.slot heq)

/-- A bucket has one entry for each vertex of its statement. -/
theorem size_bucket (hg : g.Indexed) (harranged : g.Arranged) (s : StatementId) :
    (g.bucket s).size = g.vertices.toList.countP fun x => x.state.statement? = some s := by
  have hperm : (g.bucket s).toList.Perm
      ((g.vertices.toList.filter fun x => x.state.statement? = some s).map (·.id)) := by
    refine (List.perm_ext_iff_of_nodup (hg.nodup_bucket s)
      (harranged.nodup_ids.sublist (List.filter_sublist.map _))).mpr fun v => ?_
    rw [Array.mem_toList_iff, hg.mem_bucket, List.mem_map]
    constructor
    · rintro ⟨key, hkey, rfl⟩
      obtain ⟨x, hx, hstate⟩ := Option.map_eq_some_iff.mp hkey
      have hmem : x ∈ g.vertices := Array.mem_of_getElem? hx
      refine ⟨x, List.mem_filter.mpr ⟨Array.mem_toList_iff.mpr hmem, ?_⟩, ?_⟩
      · rw [hstate]
        exact decide_eq_true rfl
      · exact VertexId.slot_inj.mp (harranged.vertexSlot v.slot x hx)
    · rintro ⟨x, hx, rfl⟩
      obtain ⟨hmem, hstatement⟩ := List.mem_filter.mp hx
      obtain ⟨key, hkey, hs⟩ := Option.map_eq_some_iff.mp (of_decide_eq_true hstatement)
      refine ⟨key, ?_, hs⟩
      rw [state?_eq (harranged.vertex?_id (Array.mem_toList_iff.mp hmem))]
      cases hstate : x.state with
      | query l =>
          rw [hstate] at hkey
          exact congrArg (some ∘ VertexState.query) (Option.some.inj hkey)
      | _ =>
          rw [hstate] at hkey
          cases hkey
  rw [← Array.length_toList, hperm.length_eq, List.length_map, List.countP_eq_length_filter]

/-- The buckets of the procedure's statements hold all query vertices between them. -/
theorem sum_statementVertexCount (hg : g.Indexed) (harranged : g.Arranged) :
    ((g.procedure.statements.map (·.id)).dedup.map g.statementVertexCount).sum =
      g.vertices.toList.countP (·.state.isQuery) := by
  have hsize : g.statementVertexCount =
      fun s => g.vertices.toList.countP fun x => x.state.statement? = some s :=
    funext (hg.size_bucket harranged)
  rw [hsize, sum_countP_comm fun s (x : Vertex α) => x.state.statement? = some s]
  -- a query vertex is counted for its own statement, which the procedure declares
  refine sum_map_eq_countP _ fun x hx => ?_
  cases hstate : x.state with
  | query key =>
      have hkey : g.state? x.id = some (.query key) := by
        rw [state?_eq (harranged.vertex?_id (Array.mem_toList_iff.mp hx)), hstate]
      obtain ⟨y, hy, hid⟩ := (g.procedure.declares_iff key.statement).mp (hg.declared x.id key hkey)
      have hmem : key.statement ∈ (g.procedure.statements.map (·.id)).dedup :=
        List.mem_dedup.mpr (List.mem_map.mpr ⟨y, hy, hid⟩)
      have hcount := List.count_eq_one_of_mem (List.nodup_dedup _) hmem
      rw [← hcount]
      refine List.countP_congr fun s _ => ?_
      simp only [VertexState.statement?, VertexState.key?, Option.map_some, Option.some.injEq,
        decide_eq_true_eq, beq_iff_eq]
      exact eq_comm
  | _ => simp [VertexState.statement?, VertexState.key?, VertexState.isQuery, VertexState.kind]

end Indexed

variable [Weight α] {g k : Graph α}

/-! ## Growth keeps the index -/

/-- Seeding makes buckets and puts nothing into them. -/
theorem bucket_seed (h : g.seeded = false) (hempty : ∀ s, g.bucket s = #[]) (s : StatementId) :
    g.seed.bucket s = #[] := by
  have hfold : ∀ (ss : List Statement) (t : Table StatementId (Array VertexId)),
      (∀ s, (t.get? s).getD #[] = #[]) →
      ((ss.foldl (fun t s => if (t.get? s.id).isSome then t else t.insert s.id #[]) t).get? s).getD
        #[] = #[] := by
    intro ss
    induction ss with
    | nil => exact fun t ht => ht s
    | cons x ss ih =>
        intro t ht
        refine ih _ fun s' => ?_
        beta_reduce
        split
        · exact ht s'
        · rw [Table.get?_insert]
          split
          · rfl
          · exact ht s'
  rw [seed_of_unseeded h]
  exact hfold _ _ hempty

theorem Indexed.seed (hg : g.Indexed) (hmarked : g.Marked) (h : g.seeded = false) :
    g.seed.Indexed := by
  have hempty : ∀ s, g.bucket s = #[] := by
    intro s
    refine Array.eq_empty_iff_forall_not_mem.mpr fun v hv => ?_
    have hlt := hg.slot_lt hv
    rw [(hmarked.unseeded h).1] at hlt
    cases hlt
  have hmarkers : ∀ v key, g.seed.state? v ≠ some (.query key) := by
    intro v key hv
    rcases state?_seed hmarked h hv with ⟨-, hs⟩ | ⟨-, hs⟩ | ⟨-, hs⟩ <;> cases hs
  refine ⟨fun s v => ?_, fun s => ?_, fun v key hv => absurd hv (hmarkers v key)⟩
  · rw [bucket_seed h hempty]
    constructor
    · intro hv
      cases Array.mem_toList_iff.mpr hv
    · rintro ⟨key, hkey, -⟩
      exact absurd hkey (hmarkers v key)
  · rw [bucket_seed h hempty]
    exact List.Pairwise.nil

/-- A new vertex is the last one of the arena and the last one of its bucket. -/
theorem Indexed.pushQuery (hg : g.Indexed) {key : VertexKey}
    (hdeclared : g.procedure.declares key.statement = true) (hfit : (g.pushQuery key).Fits) :
    (g.pushQuery key).Indexed := by
  have hpush : (g.pushVertex (.query key)).Fits := ⟨hfit.vertices, hfit.edges⟩
  have hnext := slot_nextVertex hpush
  refine ⟨fun s v => ?_, fun s => ?_, fun v l hv => ?_⟩
  · rw [bucket_pushQuery, state?_pushQuery]
    by_cases hv : v.slot = g.vertices.size
    · -- the new vertex is in no other bucket
      have hnew : ∀ s, v ∉ g.bucket s := fun s hmem => (hg.slot_lt hmem).ne hv
      have hvnext : v = g.nextVertex := VertexId.slot_inj.mp (hv.trans hnext.symm)
      rw [if_pos hv]
      by_cases hs : s = key.statement
      · simp [hs, hvnext]
      · simp [hs, hnew, Ne.symm hs]
    · have hvnext : v ≠ g.nextVertex := fun heq => hv (heq ▸ hnext)
      rw [if_neg hv, ← hg.mem_bucket]
      split
      · next hs => rw [Array.mem_push, or_iff_left hvnext, hs]
      · rfl
  · rw [bucket_pushQuery]
    split
    · rw [Array.toList_push, List.pairwise_append]
      refine ⟨hg.ascending _, List.pairwise_singleton _ _, fun v hv w hw => ?_⟩
      rw [List.mem_singleton.mp hw, hnext]
      exact hg.slot_lt (Array.mem_toList_iff.mp hv)
    · exact hg.ascending s
  · rw [state?_pushQuery] at hv
    split at hv
    · cases hv
      exact hdeclared
    · exact hg.declared v l hv

/-- However a graph grows, its index and its arena agree as long as every slot has a handle. -/
theorem Growth.indexed (h : Growth g k) :
    g.Marked → (g.Fits → g.Indexed) → k.Fits → k.Indexed := by
  induction h with
  | retain h => exact fun _ hg hk => (hg ((Growth.retain h).fits hk)).of_layout h
  | remember =>
      intro _ hg hk
      have hgraph := hg ⟨hk.vertices, hk.edges⟩
      exact ⟨hgraph.mem_bucket, hgraph.ascending, hgraph.declared⟩
  | markers h => exact fun hmarked hg hk => (hg ((Growth.markers h).fits hk)).seed hmarked h
  | query key hseeded hdeclared hnew =>
      intro _ hg hk
      exact (hg ((Growth.query key hseeded hdeclared hnew).fits hk)).pushQuery hdeclared hk
  | @edge g source dest hs hd hnew =>
      intro _ hg hk
      have hgraph := hg ((Growth.edge source dest hs hd hnew).fits hk)
      have hstate := g.state?_pushEdge source dest
      refine ⟨fun s v => ?_, hgraph.ascending, fun v key hv => ?_⟩
      · rw [hstate]
        exact hgraph.mem_bucket s v
      · exact hgraph.declared v key ((hstate v).symm.trans hv)
  | trans h₁ _ ih₁ ih₂ => exact fun hmarked hg => ih₂ (h₁.marked hmarked) (ih₁ hmarked hg)

/-! ## Reachable graphs -/

omit [Weight α] in
theorem catalogued_empty (p : Procedure) (s : ModelSettings α) : (Graph.empty p s).Catalogued where
  listed v key hv := by cases hv
  single v w s hv := by cases hv

/-- In every reachable graph the buckets list the query vertices of their statements, each once and
in the order of their slots; identities are unique, a look-up finds exactly the query vertex of an
identity, and the buckets of the procedure's statements count every query vertex once. -/
theorem reachable_index {p : Procedure} {s : ModelSettings α} {g : Graph α} (h : Reachable p s g)
    (hfit : g.Fits) :
    (∀ st, (g.bucket st).toList.Pairwise (fun v w => v.slot < w.slot) ∧
      ∀ v, v ∈ g.bucket st ↔ ∃ key, g.state? v = some (.query key) ∧ key.statement = st) ∧
    (∀ v w k l, g.state? v = some (.query k) → g.state? w = some (.query l) →
      k.Agrees s.usePastPartitions l → v = w) ∧
    (∀ key v, g.findKey key = some v ↔
      ∃ k, g.state? v = some (.query k) ∧ k.Agrees s.usePastPartitions key) ∧
    ((p.statements.map (·.id)).dedup.map g.statementVertexCount).sum =
      g.vertices.toList.countP (·.state.isQuery) := by
  have hgrow := growth_of_reachable h
  have hmarked := marked_empty p s
  have hindexed := hgrow.indexed hmarked (fun _ => indexed_empty p s) hfit
  have hcatalogued := hgrow.catalogued hmarked (fun _ => catalogued_empty p s) hfit
  have hsettings : g.settings = s := hgrow.settings_eq
  have hprocedure : g.procedure = p := hgrow.procedure_eq
  have hfind := hcatalogued.findKey_eq_some_iff
  rw [hsettings] at hfind
  refine ⟨fun st => ⟨hindexed.ascending st, hindexed.mem_bucket st⟩, fun v w k l hv hw hkl => ?_,
    hfind, ?_⟩
  · -- a look-up of the second identity finds both vertices
    have hv' := (hfind l v).mpr ⟨k, hv, hkl⟩
    have hw' := (hfind l w).mpr ⟨l, hw, rfl, rfl, rfl, fun _ => rfl⟩
    exact Option.some.inj (hv'.symm.trans hw')
  · rw [← hprocedure]
    exact hindexed.sum_statementVertexCount (arranged_of_reachable h hfit)

/-- Where the past does not count, a look-up with another past finds the vertex all the same. -/
theorem reachable_index_transfer :
    let s : ModelSettings Rat := { ModelSettings.standard with usePastPartitions := false }
    let g := (fresh transfer s).performAll transferHistory
    g.bucket ⟨10⟩ = #[⟨3⟩] ∧ g.findKey ⟨⟨10⟩, .singleton ⟨0⟩, .singleton ⟨7⟩, 0⟩ = some ⟨3⟩ ∧
      ((transfer.statements.map (·.id)).dedup.map g.statementVertexCount).sum = 2 ∧
      g.vertices.toList.countP (·.state.isQuery) = 2 := by
  intro s g
  have hreach : Reachable transfer s g := (Reachable.empty.step .seed).performAll _
  have hfit : g.Fits := ⟨by decide +kernel, by decide +kernel⟩
  obtain ⟨-, -, hfind, hsum⟩ := reachable_index hreach hfit
  have hcount : g.vertices.toList.countP (·.state.isQuery) = 2 := by decide +kernel
  refine ⟨by decide +kernel, ?_, by rw [hsum, hcount], hcount⟩
  refine (hfind _ _).mpr
    ⟨⟨⟨10⟩, .singleton ⟨0⟩, ∅, 0⟩, by decide +kernel, rfl, rfl, rfl, fun h => ?_⟩
  cases h

end Graph

end PathForecast
