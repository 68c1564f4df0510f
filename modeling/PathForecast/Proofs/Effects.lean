import PathForecast.Proofs.Confidence
import PathForecast.Proofs.Estimates
import PathForecast.Proofs.Samples
import PathForecast.Proofs.Shares
import PathForecast.Proofs.StatementIndex

/-!
# What learning does

A learned trace takes one path, and everything that changes is on it. `IsPathOf` says which path it
is, in terms of the queries and of the partitions that the estimator assigns to them; `Effect` says
what becomes of every vertex and every edge, on the path and off it. Main statement:
`learn_effect`, learning an accepted trace does exactly that.
-/

set_option autoImplicit false

namespace PathForecast

namespace Graph

variable {α : Type}

/-- The path of a trace whose queries are assigned the given partitions: the start marker, a vertex
for each query, and the marker of the outcome. The vertex of a query has its statement and its
partitions, the number of earlier queries of that statement, and, where the settings ask for it, the
partitions of all earlier queries. -/
structure IsPathOf (g : Graph α) (t : TransactionTrace) (sets : List PartitionSet)
    (path : List VertexId) : Prop where
  nodup : path.Nodup
  length_eq : path.length = t.queries.length + 2
  start : ∃ v, path[0]? = some v ∧ g.state? v = some .start
  query : ∀ i q partitions, t.queries[i]? = some q → sets[i]? = some partitions →
    ∃ v key, path[i + 1]? = some v ∧ g.state? v = some (.query key) ∧
      key.statement = q.statement ∧ key.partitions = partitions ∧
      key.index.toNat = (t.queries.take i).countP (fun r => r.statement = q.statement) ∧
      (g.settings.usePastPartitions = true →
        ∀ p, p ∈ key.past ↔ ∃ earlier ∈ sets.take i, p ∈ earlier)
  terminal : ∃ v, path[t.queries.length + 1]? = some v ∧
    g.state? v = some (if t.aborted then .abort else .commit)

/-- What becomes of a graph when a trace takes a path through it. -/
structure Effect (g k : Graph α) (t : TransactionTrace) (path : List VertexId) : Prop where
  /-- A vertex on the path has one more hit and one more sample that waits, in place of any other
  with the same key. -/
  oldVertices : ∀ v x, g.vertex? v = some x → ∃ y, k.vertex? v = some y ∧
    y.id = x.id ∧ y.element = x.element ∧ y.state = x.state ∧ y.forecast = x.forecast ∧
    y.hits.folded = x.hits.folded ∧
    y.hits.window = (if v ∈ path then x.hits.window + 1 else x.hits.window) ∧
    y.timing.count = x.timing.count ∧ y.timing.total = x.timing.total ∧
    y.timing.pending = if v ∈ path then
        (⟨t.stop, t.txn⟩, (Journey.mk t path).durationAt v) ::
          x.timing.pending.filter fun s => s.1 ≠ ⟨t.stop, t.txn⟩
      else x.timing.pending
  /-- A vertex is new only if there was none of its identity. -/
  newVertices : ∀ v y, g.vertex? v = none → k.vertex? v = some y → v ∈ path ∧
    y.hits = ⟨0, 1⟩ ∧
    y.timing = ⟨[(⟨t.stop, t.txn⟩, (Journey.mk t path).durationAt v)], 0, 0⟩ ∧
    ∃ key, y.state = .query key ∧ ∀ w l, g.state? w = some (.query l) →
      ¬l.Agrees g.settings.usePastPartitions key
  /-- An edge on the path has one more hit. -/
  oldEdges : ∀ j e, g.edge? j = some e → ∃ f, k.edge? j = some f ∧
    f.id = e.id ∧ f.element = e.element ∧ f.source = e.source ∧ f.dest = e.dest ∧
    f.probability = e.probability ∧ f.hits.folded = e.hits.folded ∧
    f.hits.window = if e.pair ∈ legs path then e.hits.window + 1 else e.hits.window
  /-- An edge is new only if there was none for its pair. -/
  newEdges : ∀ j f, g.edge? j = none → k.edge? j = some f → f.pair ∈ legs path ∧
    f.hits = ⟨0, 1⟩ ∧ ∀ i e, g.edge? i = some e → e.pair ≠ f.pair
  /-- Every pair of consecutive vertices has an edge. -/
  joined : ∀ l ∈ legs path, ∃ j f, k.edge? j = some f ∧ f.pair = l
  transactionCount : k.transactionCount = g.transactionCount + 1

/-! ## Probabilities -/

def chance [Weight α] (g : Graph α) (j : EdgeId) : α := ((g.edge? j).map (·.probability)).getD 0

variable [Weight α] {g k : Graph α}

theorem chance_eq {j : EdgeId} {e : Edge α} (he : g.edge? j = some e) :
    g.chance j = e.probability := by
  rw [chance, he]
  rfl

/-- A new edge has no probability yet. -/
theorem chance_pushEdge (g : Graph α) (source dest : VertexId) (j : EdgeId) :
    (g.pushEdge source dest).chance j = g.chance j := by
  unfold chance edge?
  rw [getElem?_pushEdge]
  split
  · next h =>
      rw [h, Array.getElem?_size]
      rfl
  · rfl

theorem chance_recordHit (g : Graph α) (i j : EdgeId) :
    (g.updateEdge i (·.recordHit)).chance j = g.chance j := by
  unfold chance
  rw [edge?_updateEdge]
  split
  · rw [Option.map_map]
    rfl
  · rfl

theorem chance_traverseEdge (g : Graph α) (sample : SampleKey) (source dest : VertexId)
    (remaining : UInt64) (j : EdgeId) :
    (g.traverseEdge sample source dest remaining).chance j = g.chance j := by
  have hensure : (g.ensureEdge source dest).1.chance j = g.chance j :=
    ensureEdge_keeps (·.chance j) fun _ => g.chance_pushEdge source dest j
  exact (chance_recordHit _ _ j).trans hensure

theorem chance_learn {t : TransactionTrace} {estimator : Estimator} {path : List VertexId}
    (h : g.learn t estimator = .ok (k, path)) (j : EdgeId) : k.chance j = g.chance j := by
  obtain ⟨-, visits, -, hwalk⟩ := (learn_eq_ok_iff g t estimator (k, path)).mp h
  rw [(Prod.mk.inj hwalk).1]
  refine walk_induction (motive := fun l => l.chance j = g.chance j)
    ?enter ?follow ?leave ?count rfl
  case enter => exact id
  case follow =>
    intro l previous visit _ hl
    rw [← hl]
    have hensure : (l.ensureVertex visit.key).1.chance j = l.chance j :=
      ensureVertex_keeps (·.chance j) rfl
    exact ((l.ensureVertex visit.key).1.chance_traverseEdge _ previous _ _ j).trans hensure
  case leave => exact fun previous hl => (chance_traverseEdge _ _ previous _ _ j).trans hl
  case count => exact id

/-! ## Vertices that are new -/

theorem state?_followAll (sample : SampleKey) (visits : List Visit) {v : VertexId}
    {s : VertexState} :
    ∀ {g : Graph α} {previous : VertexId}, g.Ready previous visits →
      (g.followAll sample previous visits).1.Fits →
      (g.followAll sample previous visits).1.state? v = some s →
      g.state? v = some s ∨
        v ∈ (g.followAll sample previous visits).2 ∧ ∃ key, s = .query key := by
  induction visits with
  | nil => exact fun _ _ hs => .inl hs
  | cons visit visits ih =>
      intro g previous h hfit hs
      rw [followAll_cons] at hfit hs ⊢
      have hrest := (growth_followAll sample visits (h.follow sample)).1
      rcases ih (h.follow sample) hfit hs with hs | ⟨hv, hkey⟩
      · rcases state?_follow hs with hs | ⟨hkey, hv⟩
        · exact .inl hs
        · have hensured := ((h.growth_move sample).trans hrest).fits hfit
          exact .inr ⟨List.mem_cons.mpr (.inl (hv hensured)), _, hkey⟩
      · exact .inr ⟨List.mem_cons_of_mem _ hv, hkey⟩

/-- What was not there before has been met on the way. -/
theorem state?_learn (hmarked : g.Marked) {t : TransactionTrace} {estimator : Estimator}
    {path : List VertexId} (h : g.learn t estimator = .ok (k, path)) (hfit : k.Fits) {v : VertexId}
    {s : VertexState} (hs : k.state? v = some s) :
    g.state? v = some s ∨ v ∈ path ∧ ∃ key, s = .query key := by
  obtain ⟨hseeded, visits, hresolve, heq⟩ := (learn_eq_ok_iff g t estimator (k, path)).mp h
  have hk : k = (g.walk t visits).1 := congrArg Prod.fst heq
  have hpath : path = (g.walk t visits).2 := congrArg Prod.snd heq
  subst hk hpath
  have hdeclared : ∀ visit ∈ visits, g.procedure.declares visit.key.statement = true :=
    fun visit hmem => (itinerary_of_resolve hresolve).declares _ (List.mem_map_of_mem hmem)
  have hleave := growth_leave hmarked hseeded t hdeclared
  have hfollowed : (g.followed t visits).1.state? v = some s := by
    rw [walk_eq, state?_of_layout (layout_countTransaction _), state?_traverseEdge] at hs
    exact hs
  rcases state?_followAll t.sampleKey visits (hmarked.ready_enter hseeded t hdeclared)
      (hleave.fits hfit) hfollowed with hs | ⟨hv, hkey⟩
  · exact .inl ((state?_of_layout (layout_enter g _ _) v).symm.trans hs)
  · exact .inr ⟨List.mem_append_left _ (List.mem_cons_of_mem _ hv), hkey⟩

/-! ## The path -/

/-- The entry of a list that corresponds to one of a related list. -/
theorem getElem?_of_forall₂ {β γ : Type} {R : β → γ → Prop} {l : List β} {m : List γ}
    (h : List.Forall₂ R l m) {i : Nat} {c : γ} (hc : m[i]? = some c) :
    ∃ b, l[i]? = some b ∧ R b c := by
  induction h generalizing i with
  | nil => cases hc
  | cons hb _ ih =>
      cases i with
      | zero =>
          cases hc
          exact ⟨_, rfl, hb⟩
      | succ i => exact ih hc

/-- The identity that an accepted trace has at one of its queries. -/
theorem exists_key_of_resolve {t : TransactionTrace} {p : Procedure} {estimator : Estimator}
    {visits : List Visit} (h : t.resolve p estimator = .ok visits) {sets : List PartitionSet}
    (hsets : estimator.Estimates t sets) {i : Nat} {q : QueryTrace} {partitions : PartitionSet}
    (hq : t.queries[i]? = some q) (hpartitions : sets[i]? = some partitions) :
    ∃ key : VertexKey, (visits.map (·.key))[i]? = some key ∧ key.statement = q.statement ∧
      key.partitions = partitions ∧
      key.index.toNat = (t.queries.take i).countP (fun r => r.statement = q.statement) ∧
      ∀ p, p ∈ key.past ↔ ∃ earlier ∈ sets.take i, p ∈ earlier := by
  obtain ⟨sets', hsets', hkeys⟩ := exists_estimates_of_resolve h
  rw [hsets'.unique hsets] at hkeys
  obtain ⟨-, hshort, -⟩ := (resolve_eq_ok_iff t p estimator visits).mp h
  have hlength : t.statements.length = sets.length := by
    rw [TransactionTrace.statements, List.length_map, hsets.length_eq]
  have hstep : (t.statements.zip sets)[i]? = some (q.statement, partitions) := by
    rw [List.getElem?_zip_eq_some, TransactionTrace.statements, List.getElem?_map, hq]
    exact ⟨rfl, hpartitions⟩
  have hkey := getElem?_keysAlong (t.statements.zip sets) ∅ (fun _ => 0) i
  rw [← hkeys, hstep, Option.map_some, Nat.zero_add] at hkey
  refine ⟨_, hkey, rfl, rfl, ?_, fun p => ?_⟩
  · have hfst : ((t.statements.zip sets).take i).map Prod.fst =
        (t.queries.take i).map (·.statement) := by
      rw [List.map_take, List.map_fst_zip hlength.le, TransactionTrace.statements, List.map_take]
    have hcount : ((t.statements.zip sets).take i).countP (fun r => r.1 = q.statement) =
        (t.queries.take i).countP fun r => r.statement = q.statement := by
      have hsame := congrArg (List.countP fun s => s = q.statement) hfst
      rw [List.countP_map, List.countP_map] at hsame
      exact hsame
    have hle : (t.queries.take i).countP (fun r => r.statement = q.statement) ≤ t.queries.length :=
      List.countP_le_length.trans (List.length_take_le' i _)
    rw [hcount]
    refine UInt32.toNat_ofNat_of_lt ?_
    simp only [maxTraceQueries] at hshort
    simp only [UInt32.size]
    omega
  · have hsnd : ((t.statements.zip sets).take i).map Prod.snd = sets.take i := by
      rw [List.map_take, List.map_snd_zip hlength.ge]
    rw [PartitionSet.mem_foldl_union Prod.snd, or_iff_right (PartitionSet.not_mem_empty p), ← hsnd]
    simp only [List.mem_map, exists_exists_and_eq_and]

omit [Weight α] in
theorem Traces.isPathOf (hmarked : g.Marked) (hseeded : g.seeded = true) {path : List VertexId}
    {t : TransactionTrace × Estimator} (h : g.Traces path t) (hnodup : path.Nodup) :
    ∃ sets, t.2.Estimates t.1 sets ∧ g.IsPathOf t.1 sets path := by
  obtain ⟨visits, mid, hvisits, rfl, hholds⟩ := h
  obtain ⟨sets, hsets, -⟩ := exists_estimates_of_resolve hvisits
  have hmid : mid.length = t.1.queries.length := by
    rw [hholds.length_eq, List.length_map, (visits_of_resolve hvisits).length_eq]
  refine ⟨sets, hsets, hnodup, by simp [hmid], ⟨_, rfl, hmarked.start hseeded⟩, ?_, ?_⟩
  · intro i q partitions hq hpartitions
    obtain ⟨key, hkey, hstatement, hparts, hindex, hpast⟩ :=
      exists_key_of_resolve hvisits hsets hq hpartitions
    obtain ⟨v, hv, hvkey⟩ := getElem?_of_forall₂ hholds hkey
    obtain ⟨l, hl, hsame⟩ := hvkey.query
    obtain ⟨hstatement', hparts', hindex', hpast'⟩ := (l.same_iff key _).mp hsame
    have hlt : i < mid.length := (List.getElem?_eq_some_iff.mp hv).1
    refine ⟨v, l, ?_, hl, hstatement'.trans hstatement, hparts'.trans hparts, ?_, fun huse => ?_⟩
    · rw [List.cons_append, List.getElem?_cons_succ, List.getElem?_append_left hlt, hv]
    · rw [hindex', hindex]
    · rw [hpast' huse]
      exact hpast
  · refine ⟨terminal t.1.aborted, by simp [hmid], ?_⟩
    cases t.1.aborted with
    | false => exact hmarked.commit hseeded
    | true => exact hmarked.abort hseeded

/-! ## What is new -/

/-- The identity of a new vertex had no vertex before, or the look-up would have found that one. -/
theorem Growth.not_agrees_of_new (hgrow : Growth g k) (hk : k.Catalogued) {v : VertexId}
    {key : VertexKey} (hv : k.state? v = some (.query key)) (hnone : g.state? v = none)
    {w : VertexId} {l : VertexKey} (hw : g.state? w = some (.query l)) :
    ¬l.Agrees g.settings.usePastPartitions key := by
  intro hagrees
  have hold : k.findKey key = some w := (hk.findKey_eq_some_iff key w).mpr
    ⟨l, hgrow.state? hw, hgrow.settings_eq ▸ hagrees⟩
  have hnew : k.findKey key = some v := (hk.findKey_eq_some_iff key v).mpr
    ⟨key, hv, rfl, rfl, rfl, fun _ => rfl⟩
  have hsame : w = v := Option.some.inj (hold.symm.trans hnew)
  rw [hsame, hnone] at hw
  cases hw

/-- The pair of a new edge had no edge before. -/
theorem Growth.pair_ne_of_new (hgrow : Growth g k) (hg : g.Arranged) (hk : k.Arranged)
    {i j : EdgeId} {e f : Edge α} (hf : k.edge? j = some f) (hnone : g.edge? j = none)
    (he : g.edge? i = some e) : e.pair ≠ f.pair := by
  intro hpair
  obtain ⟨hsource, hdest⟩ := Prod.mk.inj hpair
  have hij := hgrow.edgeBetween (hg.edgeBetween_of_edge? he)
  rw [hsource, hdest, hk.edgeBetween_of_edge? hf] at hij
  rw [← Option.some.inj hij, hnone] at he
  cases he

/-! ## What changes -/

theorem effect_of_learn (harranged : g.Arranged) (hmarked : g.Marked) (hcatalogued : k.Catalogued)
    {t : TransactionTrace} {estimator : Estimator} {path : List VertexId}
    (h : g.learn t estimator = .ok (k, path)) (hfit : k.Fits) : Effect g k t path := by
  have hwalked := walked_of_learn harranged hmarked h hfit
  have hk := hwalked.growth.arranged (fun _ => harranged) hfit
  have htiming := timingAt_learn hmarked h hwalked.route.nodup
  refine ⟨?oldVertices, ?newVertices, ?oldEdges, ?newEdges, ?joined, hwalked.transactionCount⟩
  case oldVertices =>
    intro v x hx
    obtain ⟨y, hy, hid, helement, hstate⟩ := hwalked.growth.vertex? hx
    have hforecast : y.forecast = x.forecast := by
      rw [← outlook_eq hy, outlook_learn h, outlook_eq hx]
    have hhits : y.hits = if v ∈ path then x.hits.record else x.hits := by
      rw [hits_eq_vertexHits hy, hwalked.vertexHits, hits_eq_vertexHits hx]
    have hsamples : y.timing = if v ∈ path then
        x.timing.record t.sampleKey ((Journey.mk t path).durationAt v) else x.timing := by
      rw [← timingAt_eq hy, htiming, timingAt_eq hx]
    refine ⟨y, hy, hid, helement, hstate, hforecast, ?_⟩
    rw [hhits, hsamples]
    by_cases hv : v ∈ path
    · simp only [if_pos hv]
      exact ⟨rfl, rfl, rfl, rfl, rfl⟩
    · simp only [if_neg hv, and_self]
  case newVertices =>
    intro v y hx hy
    have hnone : g.state? v = none := by rw [state?, hx, Option.map_none]
    rcases state?_learn hmarked h hfit (state?_eq hy) with hs | ⟨hv, key, hkey⟩
    · rw [hnone] at hs
      cases hs
    · refine ⟨hv, ?_, ?_, key, hkey, fun w l hw => ?_⟩
      · rw [hits_eq_vertexHits hy, hwalked.vertexHits, if_pos hv, vertexHits, hx]
        rfl
      · rw [← timingAt_eq hy, htiming, if_pos hv, timingAt, readAt, hx]
        rfl
      · exact hwalked.growth.not_agrees_of_new hcatalogued
          ((state?_eq hy).trans (congrArg some hkey)) hnone hw
  case oldEdges =>
    intro j e he
    obtain ⟨f, hf, hframe⟩ := hwalked.growth.edge? he
    obtain ⟨hid, helement, hsource, hdest⟩ := (f.frame_eq_iff e).mp hframe
    have hhits : f.hits = if e.pair ∈ legs path then e.hits.record else e.hits := by
      rw [hits_eq_edgeHits hk hf, hwalked.edgeHits, hsource, hdest,
        ← hits_eq_edgeHits harranged he]
      rfl
    have hprobability : f.probability = e.probability := by
      rw [← chance_eq hf, chance_learn h, chance_eq he]
    refine ⟨f, hf, hid, helement, hsource, hdest, hprobability, ?_⟩
    rw [hhits]
    by_cases hleg : e.pair ∈ legs path
    · simp only [if_pos hleg]
      exact ⟨rfl, rfl⟩
    · simp only [if_neg hleg, and_self]
  case newEdges =>
    intro j f he hf
    have hother : ∀ i e, g.edge? i = some e → e.pair ≠ f.pair :=
      fun _ _ => hwalked.growth.pair_ne_of_new harranged hk hf he
    have hnone : g.edgeBetween f.source f.dest = none := by
      rw [Option.eq_none_iff_forall_ne_some]
      intro i hi
      obtain ⟨e, he, hsource, hdest⟩ := (harranged.joined _ _ i).mp hi
      exact hother i e he (Prod.ext hsource hdest)
    have hleg : f.pair ∈ legs path := by
      have hjoined := (hwalked.joined f.source f.dest).mp
        (by rw [hk.edgeBetween_of_edge? hf]; rfl)
      rw [hnone] at hjoined
      exact hjoined.resolve_left Bool.false_ne_true
    refine ⟨hleg, ?_, hother⟩
    rw [hits_eq_edgeHits hk hf, hwalked.edgeHits, edgeHits, hnone]
    exact if_pos hleg
  case joined =>
    intro l hl
    obtain ⟨j, hj⟩ := Option.isSome_iff_exists.mp ((hwalked.joined l.1 l.2).mpr (.inr hl))
    obtain ⟨f, hf, hsource, hdest⟩ := (hk.joined l.1 l.2 j).mp hj
    exact ⟨j, f, hf, Prod.ext hsource hdest⟩

/-- Learning an accepted trace takes its path, with one hit for every vertex and every leg of the
path and one sample for every vertex, adds what is missing on the path, and changes nothing else. -/
theorem learn_effect {p : Procedure} {s : ModelSettings α} (hreach : Reachable p s g)
    {t : TransactionTrace} {estimator : Estimator} {path : List VertexId}
    (h : g.learn t estimator = .ok (k, path)) (hfit : k.Fits) :
    ∃ sets, estimator.Estimates t sets ∧ k.IsPathOf t sets path ∧ Effect g k t path := by
  have hmarked := marked_of_reachable hreach
  have hgrow := growth_learn hmarked h
  have harranged := arranged_of_reachable hreach (hgrow.fits hfit)
  have hcatalogued := ((growth_of_reachable hreach).trans hgrow).catalogued (marked_empty p s)
    (fun _ => catalogued_empty p s) hfit
  obtain ⟨hseeded, -⟩ := (learn_eq_ok_iff g t estimator (k, path)).mp h
  have hnodup := (walked_of_learn harranged hmarked h hfit).route.nodup
  obtain ⟨sets, hsets, hpath⟩ := (traces_of_learn hmarked h hfit).isPathOf (hgrow.marked hmarked)
    (hgrow.seeded_of_seeded hseeded) hnodup
  exact ⟨sets, hsets, hpath, effect_of_learn harranged hmarked hcatalogued h hfit⟩

/-- A transaction that debits twice: the first debit and the credit lead to known vertices, the
second debit to a new one between them. -/
theorem learn_effect_transfer :
    let g := (fresh transfer (.standard : ModelSettings Rat)).performAll transferHistory
    let t := transferTrace 5 true [10, 10, 11]
    let k := g.perform (.learn t .recorded)
    let path : List VertexId := [⟨0⟩, ⟨3⟩, ⟨5⟩, ⟨4⟩, ⟨2⟩]
    g.learn t .recorded = .ok (k, path) ∧ g.vertices.size = 5 ∧
      k.IsPathOf t [.singleton ⟨0⟩, .singleton ⟨0⟩, .singleton ⟨0⟩] path ∧ Effect g k t path := by
  intro g t k path
  have hreach : Reachable transfer .standard g :=
    (Reachable.empty.step .seed).performAll transferHistory
  have hlearn : g.learn t .recorded = .ok (k, path) := learn_eq_ok_perform (by decide +kernel)
  have hfit : k.Fits := ⟨by decide +kernel, by decide +kernel⟩
  obtain ⟨sets, hsets, hpath, heffect⟩ := learn_effect hreach hlearn hfit
  have hrecorded : Estimator.recorded.Estimates t
      [.singleton ⟨0⟩, .singleton ⟨0⟩, .singleton ⟨0⟩] :=
    ⟨⟨0⟩, rfl, .cons rfl (.cons rfl (.cons rfl .nil))⟩
  rw [hsets.unique hrecorded] at hpath
  exact ⟨hlearn, by decide +kernel, hpath, heffect⟩

end Graph

end PathForecast
