import PathForecast.Proofs.HitMaps

/-!
# Routes

The path of an accepted trace is a route: it runs from the start marker over query vertices to a
terminal marker, meets no vertex twice, and every step hands over what the next state has to know,
the partitions touched so far and how often the statement was run. Main statements: `route_walk`,
walking an accepted trace takes a route, and `walked_of_learn`, what learning a trace records.
-/

set_option autoImplicit false

namespace PathForecast

/-! ## Consecutive states -/

/-- What the states of two vertices have to do with each other when a transaction steps from the
first to the second. -/
structure VertexState.Precedes (usePast : Bool) (s d : VertexState) : Prop where
  source : s.kind.isTerminal = false
  dest : d ≠ .start
  past : usePast = true → d.isQuery = true → d.past = s.touched
  index : s.isQuery = true → d.isQuery = true → s.statement? = d.statement? →
    d.index.toNat = s.index.toNat + 1

/-- A state in which a transaction can be that has touched `past` and has run each statement as
often as `counts` says. -/
structure VertexState.Leaves (usePast : Bool) (past : PartitionSet) (counts : StatementId → Nat)
    (s : VertexState) : Prop where
  running : s.kind.isTerminal = false
  touched : usePast = true → s.touched = past
  counted : ∀ key, s = .query key → counts key.statement = key.index.toNat + 1

namespace VertexState

variable {usePast : Bool} {past : PartitionSet} {counts : StatementId → Nat} {s d : VertexState}

theorem isQuery_iff (s : VertexState) : s.isQuery = true ↔ ∃ key, s = .query key := by
  cases s <;> simp [isQuery, kind]

theorem hasKey_iff (s : VertexState) (key : VertexKey) (usePast : Bool) :
    s.hasKey key usePast = true ↔ ∃ k, s = .query k ∧ k.same key usePast = true := by
  cases s <;> simp [hasKey]

theorem hasKey_self (key : VertexKey) (usePast : Bool) :
    (VertexState.query key).hasKey key usePast = true :=
  (key.same_iff key usePast).mpr ⟨rfl, rfl, rfl, fun _ => rfl⟩

theorem leaves_start : VertexState.start.Leaves usePast ∅ fun _ => 0 := by
  refine ⟨rfl, fun _ => ?_, nofun⟩
  show (∅ ∪ ∅ : PartitionSet) = ∅
  decide

theorem Leaves.precedes_terminal (hs : s.Leaves usePast past counts)
    (hd : d.kind.isTerminal = true) : s.Precedes usePast d := by
  cases d with
  | start => cases hd
  | query key => cases hd
  | commit => exact ⟨hs.running, nofun, fun _ => nofun, fun _ => nofun⟩
  | abort => exact ⟨hs.running, nofun, fun _ => nofun, fun _ => nofun⟩

theorem Leaves.precedes_query (hs : s.Leaves usePast past counts) {key : VertexKey}
    (hd : d.hasKey key usePast = true) (hpast : key.past = past)
    (hindex : key.index.toNat = counts key.statement) : s.Precedes usePast d := by
  obtain ⟨l, rfl, hsame⟩ := (d.hasKey_iff key usePast).mp hd
  obtain ⟨hstatement, -, hl, hlpast⟩ := (l.same_iff key usePast).mp hsame
  refine ⟨hs.running, nofun, fun huse _ => ?_, fun hquery _ heq => ?_⟩
  · show l.past = s.touched
    rw [hlpast huse, hpast, hs.touched huse]
  · cases s with
    | query k =>
        have hk : k.statement = l.statement := Option.some.inj heq
        have hcount := hs.counted k rfl
        rw [hk, hstatement, ← hindex, ← hl] at hcount
        exact hcount
    | _ => cases hquery

theorem leaves_query {key : VertexKey} (hd : d.hasKey key usePast = true)
    (hpast : key.past = past) (hindex : key.index.toNat = counts key.statement) :
    d.Leaves usePast (past ∪ key.partitions)
      (Function.update counts key.statement (counts key.statement + 1)) := by
  obtain ⟨l, rfl, hsame⟩ := (d.hasKey_iff key usePast).mp hd
  obtain ⟨hstatement, hpartitions, hl, hlpast⟩ := (l.same_iff key usePast).mp hsame
  refine ⟨rfl, fun huse => ?_, fun k hk => ?_⟩
  · show l.past ∪ l.partitions = past ∪ key.partitions
    rw [hlpast huse, hpast, hpartitions]
  · cases hk
    rw [hstatement, Function.update_self, hl, hindex]

end VertexState

namespace Graph

variable {α : Type}

/-! ## Vertices that answer to identities -/

def Holds (g : Graph α) (v : VertexId) (key : VertexKey) : Prop :=
  ∃ s, g.state? v = some s ∧ s.hasKey key g.settings.usePastPartitions = true

theorem Holds.query {g : Graph α} {v : VertexId} {key : VertexKey} (h : g.Holds v key) :
    ∃ k, g.state? v = some (.query k) ∧
      k.same key g.settings.usePastPartitions = true := by
  obtain ⟨s, hs, hkey⟩ := h
  obtain ⟨k, rfl, hsame⟩ := (s.hasKey_iff key _).mp hkey
  exact ⟨k, hs, hsame⟩

/-- Identities of one vertex agree in statement and index. -/
theorem Holds.agree {g : Graph α} {v : VertexId} {k l : VertexKey} (hk : g.Holds v k)
    (hl : g.Holds v l) : k.statement = l.statement ∧ k.index = l.index := by
  obtain ⟨m, hm, hmk⟩ := hk.query
  obtain ⟨n, hn, hnl⟩ := hl.query
  rw [hm] at hn
  cases hn
  obtain ⟨hs, -, hi, -⟩ := (m.same_iff k _).mp hmk
  obtain ⟨hs', -, hi', -⟩ := (m.same_iff l _).mp hnl
  exact ⟨hs.symm.trans hs', hi.symm.trans hi'⟩

theorem exists_holds {g : Graph α} {path : List VertexId} {keys : List VertexKey}
    (h : List.Forall₂ g.Holds path keys) : ∀ v ∈ path, ∃ key ∈ keys, g.Holds v key := by
  induction h with
  | nil => nofun
  | cons hv _ ih =>
      intro w hw
      rcases List.mem_cons.mp hw with rfl | hw
      · exact ⟨_, List.mem_cons_self, hv⟩
      · obtain ⟨key, hkey, hholds⟩ := ih w hw
        exact ⟨key, List.mem_cons_of_mem _ hkey, hholds⟩

theorem exists_mem_holds {g : Graph α} {path : List VertexId} {keys : List VertexKey}
    (h : List.Forall₂ g.Holds path keys) : ∀ key ∈ keys, ∃ v ∈ path, g.Holds v key := by
  induction h with
  | nil => nofun
  | cons hv _ ih =>
      intro l hl
      rcases List.mem_cons.mp hl with rfl | hl
      · exact ⟨_, List.mem_cons_self, hv⟩
      · obtain ⟨w, hw, hholds⟩ := ih l hl
        exact ⟨w, List.mem_cons_of_mem _ hw, hholds⟩

theorem nodup_of_holds {g : Graph α} {path : List VertexId} {keys : List VertexKey}
    (h : List.Forall₂ g.Holds path keys)
    (hkeys : keys.Pairwise fun k l => ¬(k.statement = l.statement ∧ k.index = l.index)) :
    path.Nodup := by
  induction h with
  | nil => exact List.nodup_nil
  | cons hv hrest ih =>
      -- a vertex met twice would answer to two identities that differ
      obtain ⟨hhead, htail⟩ := List.pairwise_cons.mp hkeys
      refine List.nodup_cons.mpr ⟨fun hmem => ?_, ih htail⟩
      obtain ⟨key, hkey, hholds⟩ := exists_holds hrest _ hmem
      exact hhead key hkey (hv.agree hholds)

/-! ## Routes -/

def Leads (g : Graph α) (v w : VertexId) : Prop :=
  ∃ s d, g.state? v = some s ∧ g.state? w = some d ∧
    s.Precedes g.settings.usePastPartitions d

/-- A path that a transaction can take. -/
structure Route (g : Graph α) (path : List VertexId) : Prop where
  nodup : path.Nodup
  shape : ∃ mid aborted, path = Markers.fixed.start :: mid ++ [terminal aborted] ∧
    ∀ v ∈ mid, ∃ key, g.state? v = some (.query key)
  leads : ∀ l ∈ legs path, g.Leads l.1 l.2

theorem state?_terminal {g : Graph α} (hg : g.Marked) (h : g.seeded = true) (aborted : Bool) :
    ∃ d, g.state? (terminal aborted) = some d ∧ d.kind.isTerminal = true := by
  cases aborted with
  | false => exact ⟨.commit, hg.commit h, rfl⟩
  | true => exact ⟨.abort, hg.abort h, rfl⟩

/-- A vertex from which a transaction can go on is no terminal marker. -/
theorem Marked.ne_terminal {g : Graph α} (hg : g.Marked) (h : g.seeded = true) {v : VertexId}
    {s : VertexState} (hs : g.state? v = some s) (hrunning : s.kind.isTerminal = false)
    (aborted : Bool) : v ≠ terminal aborted := by
  rintro rfl
  obtain ⟨d, hd, hterminal⟩ := state?_terminal hg h aborted
  rw [hs, Option.some.injEq] at hd
  rw [← hd, hrunning] at hterminal
  cases hterminal

theorem Marked.ne_start {g : Graph α} (hg : g.Marked) (h : g.seeded = true) {v : VertexId}
    {key : VertexKey} (hs : g.state? v = some (.query key)) : v ≠ Markers.fixed.start := by
  rintro rfl
  rw [hg.start h] at hs
  cases hs

theorem leads_of_itinerary {g : Graph α} (hg : g.Marked) (h : g.seeded = true) (aborted : Bool)
    {p : Procedure} {path : List VertexId} {keys : List VertexKey}
    (hholds : List.Forall₂ g.Holds path keys) :
    ∀ {v : VertexId} {s : VertexState} {past : PartitionSet} {counts : StatementId → Nat},
      Itinerary p past counts keys → g.state? v = some s →
      s.Leaves g.settings.usePastPartitions past counts →
      ∀ l ∈ legs (v :: path ++ [terminal aborted]), g.Leads l.1 l.2 := by
  induction hholds with
  | nil =>
      intro v s past counts _ hs hleaves l hl
      obtain ⟨d, hd, hterminal⟩ := state?_terminal hg h aborted
      rw [List.mem_singleton.mp hl]
      exact ⟨s, d, hs, hd, hleaves.precedes_terminal hterminal⟩
  | cons hnext _ ih =>
      -- what the rest of the itinerary expects is what the next state hands over
      rintro v s past counts ⟨_, hpast, hindex, hrest⟩ hs hleaves l hl
      obtain ⟨d, hd, hkey⟩ := hnext
      rcases List.mem_cons.mp hl with rfl | hl
      · exact ⟨s, d, hs, hd, hleaves.precedes_query hkey hpast hindex⟩
      · exact ih hrest hd (VertexState.leaves_query hkey hpast hindex) l hl

/-- Vertices that answer to an itinerary make a route. -/
theorem route_of_itinerary {g : Graph α} (hg : g.Marked) (h : g.seeded = true) (aborted : Bool)
    {p : Procedure} {path : List VertexId} {keys : List VertexKey}
    (hkeys : Itinerary p ∅ (fun _ => 0) keys) (hholds : List.Forall₂ g.Holds path keys) :
    g.Route (Markers.fixed.start :: path ++ [terminal aborted]) := by
  have hquery : ∀ v ∈ path, ∃ key, g.state? v = some (.query key) := by
    intro v hv
    obtain ⟨key, _, hkey⟩ := exists_holds hholds v hv
    obtain ⟨k, hk, _⟩ := hkey.query
    exact ⟨k, hk⟩
  refine ⟨?_, ⟨path, aborted, rfl, hquery⟩,
    leads_of_itinerary hg h aborted hholds hkeys (hg.start h) VertexState.leaves_start⟩
  -- the markers are no query vertices and differ from each other
  have hstart : Markers.fixed.start ∉ path := by
    intro hmem
    obtain ⟨key, hkey⟩ := hquery _ hmem
    exact hg.ne_start h hkey rfl
  have hend : terminal aborted ∉ path := by
    intro hmem
    obtain ⟨key, hkey⟩ := hquery _ hmem
    exact hg.ne_terminal h hkey rfl aborted rfl
  have hne : Markers.fixed.start ≠ terminal aborted := hg.ne_terminal h (hg.start h) rfl aborted
  rw [List.cons_append, List.nodup_cons, List.mem_append, List.mem_singleton]
  refine ⟨not_or.mpr ⟨hstart, hne⟩, ?_⟩
  refine List.nodup_append.mpr ⟨nodup_of_holds hholds hkeys.pairwise, List.nodup_singleton _, ?_⟩
  rintro v hv w hw rfl
  exact hend (List.mem_singleton.mp hw ▸ hv)

/-! ## Growth keeps routes -/

variable [Weight α] {g k : Graph α}

theorem Growth.holds (h : Growth g k) {v : VertexId} {key : VertexKey} (hg : g.Holds v key) :
    k.Holds v key := by
  obtain ⟨s, hs, hkey⟩ := hg
  exact ⟨s, h.state? hs, by rw [h.settings_eq]; exact hkey⟩

theorem Growth.leads (h : Growth g k) {v w : VertexId} (hg : g.Leads v w) : k.Leads v w := by
  obtain ⟨s, d, hs, hd, hprecedes⟩ := hg
  exact ⟨s, d, h.state? hs, h.state? hd, by rw [h.settings_eq]; exact hprecedes⟩

theorem Growth.route (h : Growth g k) {path : List VertexId} (hg : g.Route path) :
    k.Route path := by
  obtain ⟨mid, aborted, hpath, hquery⟩ := hg.shape
  refine ⟨hg.nodup, ⟨mid, aborted, hpath, fun v hv => ?_⟩, fun l hl => h.leads (hg.leads l hl)⟩
  obtain ⟨key, hkey⟩ := hquery v hv
  exact ⟨key, h.state? hkey⟩

/-! ## Walking -/

theorem holds_ensureVertex (key : VertexKey) (hfit : (g.ensureVertex key).1.Fits) :
    (g.ensureVertex key).1.Holds (g.ensureVertex key).2 key := by
  cases h : g.findKey key with
  | some v =>
      rw [ensureVertex_of_some h]
      rw [findKey_eq] at h
      have hv := Array.find?_some h
      obtain ⟨s, hs, hkey⟩ := (Option.any_eq_true _ _).mp hv
      exact ⟨s, hs, hkey⟩
  | none =>
      rw [ensureVertex_of_none h] at hfit ⊢
      have hpush : (g.pushVertex (.query key)).Fits := ⟨hfit.vertices, hfit.edges⟩
      have hslot := slot_nextVertex hpush
      refine ⟨.query key, ?_, VertexState.hasKey_self key _⟩
      show ((g.pushVertex (.query key)).vertices[g.nextVertex.slot]?).map (·.state) = _
      rw [getElem?_pushVertex, if_pos hslot]
      rfl

/-- The vertices that are followed answer to the visits. -/
theorem holds_followAll (sample : SampleKey) (visits : List Visit) :
    ∀ {g : Graph α} {previous : VertexId}, g.Ready previous visits →
      (g.followAll sample previous visits).1.Fits →
      List.Forall₂ (g.followAll sample previous visits).1.Holds
        (g.followAll sample previous visits).2 (visits.map (·.key)) := by
  induction visits with
  | nil => exact fun _ _ => .nil
  | cons visit visits ih =>
      intro g previous h hfit
      rw [followAll_cons] at hfit ⊢
      have hrest := (growth_followAll sample visits (h.follow sample)).1
      -- what the vertex of the visit answers to, it answers to ever after
      have hlater := (h.growth_move sample).trans hrest
      exact .cons (hlater.holds (holds_ensureVertex visit.key (hlater.fits hfit)))
        (ih (h.follow sample) hfit)

/-- What a learned transaction changes: one hit for each vertex and each leg of its route. -/
structure Walked (g k : Graph α) (path : List VertexId) (aborted : Bool) : Prop where
  growth : Growth g k
  route : k.Route path
  ends : path.getLast? = some (terminal aborted)
  vertexHits : ∀ v, k.vertexHits v =
    if v ∈ path then (g.vertexHits v).record else g.vertexHits v
  edgeHits : ∀ s d, k.edgeHits s d =
    if (s, d) ∈ legs path then (g.edgeHits s d).record else g.edgeHits s d
  joined : ∀ s d, (k.edgeBetween s d).isSome ↔
    (g.edgeBetween s d).isSome ∨ (s, d) ∈ legs path
  transactionCount : k.transactionCount = g.transactionCount + 1
  transactionsAtRecompute : k.transactionsAtRecompute = g.transactionsAtRecompute

theorem iterate_count {β : Type} [BEq β] [LawfulBEq β] {l : List β} (hl : l.Nodup) (a : β)
    [Decidable (a ∈ l)] (h : HitCount) :
    HitCount.record^[l.count a] h = if a ∈ l then h.record else h := by
  split
  · next hmem => rw [List.count_eq_one_of_mem hl hmem, Function.iterate_one]
  · next hmem => rw [List.count_eq_zero_of_not_mem hmem, Function.iterate_zero, id]

/-- The trail of a whole walk, from the graph in which the transaction has been entered. -/
theorem trail_walk (hg : g.Arranged) (hmarked : g.Marked) (h : g.seeded = true)
    (t : TransactionTrace) {visits : List Visit}
    (hdeclared : ∀ visit ∈ visits, g.procedure.declares visit.key.statement = true)
    (hfit : (g.walk t visits).1.Fits) :
    ∃ l, Trail (g.enter t.sampleKey t.elapsed) (g.walk t visits).2 l ∧
      (g.walk t visits).1 = l.countTransaction := by
  have hready := hmarked.ready_enter h t hdeclared
  have harranged := hg.of_layout (layout_enter g t.sampleKey t.elapsed)
  have hfitFollowed := (growth_leave hmarked h t hdeclared).fits hfit
  have htrail := trail_followAll t.sampleKey visits harranged hready hfitFollowed
  have hfollowed : (g.followed t visits).1.Arranged :=
    (growth_followed hmarked h t hdeclared).arranged (fun _ => hg) hfitFollowed
  have hmove := move_traverseEdge hfollowed t.sampleKey 0
    (slot_lastFollowed_lt hmarked h t hdeclared)
    (slot_terminal_followed_lt hmarked h t hdeclared) ⟨hfit.vertices, hfit.edges⟩
  exact ⟨_, htrail.concat hmove, rfl⟩

omit [Weight α] in
theorem vertexHits_enter (hmarked : g.Marked) (h : g.seeded = true) (sample : SampleKey)
    (elapsed : UInt64) (v : VertexId) :
    (g.enter sample elapsed).vertexHits v =
      if Markers.fixed.start = v then (g.vertexHits v).record else g.vertexHits v :=
  vertexHits_updateVertex g v (fun _ => rfl) (hmarked.slot_lt h (.inl rfl))

omit [Weight α] in
theorem edgeHits_enter (g : Graph α) (sample : SampleKey) (elapsed : UInt64) (s d : VertexId) :
    (g.enter sample elapsed).edgeHits s d = g.edgeHits s d :=
  edgeHits_updateVertex g Markers.fixed.start s d fun _ => rfl

/-- Walking an accepted trace takes a route. -/
theorem route_walk (hmarked : g.Marked) (h : g.seeded = true) (t : TransactionTrace)
    {visits : List Visit} (hvisits : Itinerary g.procedure ∅ (fun _ => 0) (visits.map (·.key)))
    (hfit : (g.walk t visits).1.Fits) : (g.walk t visits).1.Route (g.walk t visits).2 := by
  have hdeclared : ∀ visit ∈ visits, g.procedure.declares visit.key.statement = true :=
    fun visit hmem => hvisits.declares _ (List.mem_map_of_mem hmem)
  have hgrow := growth_followed hmarked h t hdeclared
  have hleave := growth_leave hmarked h t hdeclared
  have hholds := holds_followAll t.sampleKey visits (hmarked.ready_enter h t hdeclared)
    (hleave.fits hfit)
  exact hleave.route (route_of_itinerary (hgrow.marked hmarked) (hgrow.seeded_of_seeded h)
    t.aborted hvisits hholds)

/-- What walking an accepted trace records. -/
theorem walked_walk (hg : g.Arranged) (hmarked : g.Marked) (h : g.seeded = true)
    (t : TransactionTrace) {visits : List Visit}
    (hvisits : Itinerary g.procedure ∅ (fun _ => 0) (visits.map (·.key)))
    (hfit : (g.walk t visits).1.Fits) :
    Walked g (g.walk t visits).1 (g.walk t visits).2 t.aborted := by
  have hdeclared : ∀ visit ∈ visits, g.procedure.declares visit.key.statement = true :=
    fun visit hmem => hvisits.declares _ (List.mem_map_of_mem hmem)
  have hroute := route_walk hmarked h t hvisits hfit
  obtain ⟨l, htrail, hcount⟩ := trail_walk hg hmarked h t hdeclared hfit
  have hvertex : ∀ v, (g.walk t visits).1.vertexHits v = l.vertexHits v := by
    intro v
    rw [hcount]
    rfl
  have hedge : ∀ s d, (g.walk t visits).1.edgeHits s d = l.edgeHits s d := by
    intro s d
    rw [hcount]
    rfl
  have hbetween : ∀ s d, (g.walk t visits).1.edgeBetween s d = l.edgeBetween s d := by
    intro s d
    rw [hcount]
    rfl
  refine ⟨growth_walk hmarked h t hdeclared, hroute, List.getLast?_concat, fun v => ?_,
    fun s d => ?_, fun s d => ?_, ?_, ?_⟩
  · rw [hvertex, htrail.vertexHits, vertexHits_enter hmarked h]
    -- the start marker, entered and not followed, counts like the rest of the path
    rw [← count_cons_iterate Markers.fixed.start v]
    exact iterate_count hroute.nodup v (g.vertexHits v)
  · rw [hedge, htrail.edgeHits, edgeHits_enter]
    exact iterate_count (nodup_legs hroute.nodup) (s, d) (g.edgeHits s d)
  · rw [hbetween, htrail.joined, edgeBetween_of_layout (layout_enter g _ _)]
  · rw [hcount]
    exact congrArg (· + 1) htrail.transactions.1
  · rw [hcount]
    exact htrail.transactions.2

/-- What learning a trace records. -/
theorem walked_of_learn (hg : g.Arranged) (hmarked : g.Marked) {t : TransactionTrace}
    {estimator : Estimator} {path : List VertexId} (h : g.learn t estimator = .ok (k, path))
    (hfit : k.Fits) : Walked g k path t.aborted := by
  obtain ⟨hseeded, visits, hresolve, heq⟩ := (learn_eq_ok_iff g t estimator (k, path)).mp h
  have hk : k = (g.walk t visits).1 := congrArg Prod.fst heq
  have hpath : path = (g.walk t visits).2 := congrArg Prod.snd heq
  subst hk hpath
  exact walked_walk hg hmarked hseeded t (itinerary_of_resolve hresolve) hfit

end Graph

end PathForecast
