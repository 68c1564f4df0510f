import PathForecast.Proofs.Accounting

/-!
# Conservation of hits

Every learned transaction enters each query vertex of its route by one edge and leaves it by one,
and ends in one of the two terminal markers. Summed over the ledger of a history this is the flow
through the graph. Main statement: `hits_performAll`, what the counters of all vertices and edges
say after any history, and that they are conserved.
-/

set_option autoImplicit false

namespace PathForecast

open Ledger

/-! ## Counting twice -/

theorem sum_map_eq_countP {β : Type} {f : β → Nat} {φ : β → Bool} (l : List β)
    (h : ∀ b ∈ l, f b = if φ b then 1 else 0) : (l.map f).sum = l.countP φ := by
  induction l with
  | nil => rfl
  | cons b l ih =>
      rw [List.map_cons, List.sum_cons, h b List.mem_cons_self,
        ih fun c hc => h c (List.mem_cons_of_mem _ hc), List.countP_cons, Nat.add_comm]

theorem sum_countP_comm {β γ : Type} (R : β → γ → Bool) (l : List β) (m : List γ) :
    (l.map fun b => m.countP (R b)).sum = (m.map fun c => l.countP (R · c)).sum := by
  induction m with
  | nil => simp
  | cons c m ih =>
      simp only [List.countP_cons, List.map_cons, List.sum_cons, List.sum_map_add, ih]
      rw [sum_map_eq_countP l fun _ _ => rfl, Nat.add_comm]

/-- A part of a list without repetitions is counted the same from either side. -/
theorem countP_and_mem {β : Type} [DecidableEq β] {l m : List β} (hl : l.Nodup) (hm : m.Nodup)
    (hsub : m ⊆ l) (φ : β → Bool) : l.countP (fun b => φ b && decide (b ∈ m)) = m.countP φ := by
  have hperm : (l.filter fun b => decide (b ∈ m)).Perm m := by
    refine (List.perm_ext_iff_of_nodup (hl.filter _) hm).mpr fun b => ?_
    rw [List.mem_filter, decide_eq_true_eq]
    exact and_iff_right_of_imp fun hb => hsub hb
  rw [← hperm.countP_eq, List.countP_filter]

theorem map_fst_legs : ∀ path : List VertexId, (legs path).map Prod.fst = path.dropLast
  | [] => rfl
  | [_] => rfl
  | v :: w :: path => by
      rw [legs_cons_cons, List.map_cons, map_fst_legs (w :: path), List.dropLast_cons_cons]

theorem map_snd_legs : ∀ path : List VertexId, (legs path).map Prod.snd = path.tail
  | [] => rfl
  | [_] => rfl
  | v :: w :: path => by
      rw [legs_cons_cons, List.map_cons, map_snd_legs (w :: path)]
      rfl

namespace Graph

variable {α : Type}

/-! ## What a route passes -/

namespace Route

variable {g : Graph α} {path : List VertexId}

theorem start_mem (h : g.Route path) : Markers.fixed.start ∈ path := by
  obtain ⟨mid, aborted, rfl, _⟩ := h.shape
  exact List.mem_cons_self

theorem mem_tail_iff (h : g.Route path) {v : VertexId} (hv : v ≠ Markers.fixed.start) :
    v ∈ path.tail ↔ v ∈ path := by
  obtain ⟨mid, aborted, rfl, _⟩ := h.shape
  simp [hv]

theorem mem_dropLast_iff (h : g.Route path) {v : VertexId} (hv : ∀ aborted, v ≠ terminal aborted) :
    v ∈ path.dropLast ↔ v ∈ path := by
  obtain ⟨mid, aborted, rfl, _⟩ := h.shape
  rw [List.dropLast_concat]
  simp [hv aborted]

/-- A route ends in one terminal marker and avoids the other. -/
theorem terminal_mem_iff (h : g.Route path) (hg : g.Marked) (hseeded : g.seeded = true)
    (aborted : Bool) : terminal aborted ∈ path ↔ path.getLast? = some (terminal aborted) := by
  refine ⟨fun hmem => ?_, List.mem_of_getLast?⟩
  obtain ⟨mid, ended, rfl, hquery⟩ := h.shape
  rw [List.getLast?_concat]
  rcases List.mem_append.mp hmem with hmem | hmem
  · rcases List.mem_cons.mp hmem with hstart | hmem
    · exact absurd hstart.symm (hg.ne_terminal hseeded (hg.start hseeded) rfl aborted)
    · obtain ⟨key, hkey⟩ := hquery _ hmem
      exact absurd rfl (hg.ne_terminal hseeded hkey rfl aborted)
  · rw [List.mem_singleton.mp hmem]

end Route

/-! ## Flow -/

/-- The lifetime hits of the edges that have a vertex on one side: its outbound edges for
`Prod.fst`, its inbound edges for `Prod.snd`. -/
def hitsAt (g : Graph α) (side : VertexId × VertexId → VertexId) (v : VertexId) : Nat :=
  ((g.edges.toList.filter fun e => side e.pair = v).map (·.hits.total.toNat)).sum

theorem countP_edges {g : Graph α} (hg : g.Arranged) {path : List VertexId}
    (hpath : path.Nodup) (hlegs : legs path ⊆ g.edges.toList.map (·.pair))
    (side : VertexId × VertexId → VertexId) (v : VertexId) :
    (g.edges.toList.filter fun e => side e.pair = v).countP (fun e => e.pair ∈ legs path) =
      ((legs path).map side).count v := by
  have hsplit := countP_and_mem hg.nodup_pairs (nodup_legs hpath) hlegs fun l => side l = v
  rw [List.countP_map] at hsplit
  rw [List.countP_filter, List.count, List.countP_map]
  refine Eq.trans (List.countP_congr fun e _ => ?_) (hsplit.trans (List.countP_congr fun l _ => ?_))
  · simp [and_comm]
  · simp

theorem hits_eq_edgeHits {g : Graph α} (hg : g.Arranged) {j : EdgeId} {e : Edge α}
    (he : g.edge? j = some e) : e.hits = g.edgeHits e.source e.dest := by
  rw [edgeHits, hg.edgeBetween_of_edge? he, Option.bind_some, he]
  rfl

theorem hits_eq_vertexHits {g : Graph α} {v : VertexId} {x : Vertex α}
    (hx : g.vertex? v = some x) : x.hits = g.vertexHits v := by
  rw [vertexHits, hx]
  rfl

namespace Tallied

variable {g : Graph α} {es : List Event} (hg : g.Tallied es)
  (hbound : (learned es).length < UInt64.size)

include hg

theorem route_of_mem {keep : Option Close → Bool} {path : List VertexId}
    (hpath : path ∈ pathsWhere keep es) : g.Route path :=
  hg.routes path ((pathsWhere_sublist keep es).subset hpath)

theorem legs_subset {keep : Option Close → Bool} {path : List VertexId}
    (hpath : path ∈ pathsWhere keep es) : legs path ⊆ g.edges.toList.map (·.pair) := by
  intro l hl
  have hlearned := (pathsWhere_sublist keep es).subset hpath
  exact (hg.arranged.isSome_edgeBetween_iff l.1 l.2).mp ((hg.joined _ _).mpr ⟨path, hlearned, hl⟩)

/-- The transactions since the last recompute or reset are the current ones. -/
theorem observedSinceRecompute_eq : g.observedSinceRecompute.toNat = (current es).length := by
  rw [observedSinceRecompute, toNat_satSub, hg.sinceRecompute]
  omega

include hbound

theorem hits_vertex {v : VertexId} {x : Vertex α} (hx : g.vertex? v = some x) :
    x.hits.total.toNat = (retained es).countP (fun path => v ∈ path) ∧
      x.hits.window.toNat = (current es).countP (fun path => v ∈ path) := by
  rw [hits_eq_vertexHits hx]
  exact ⟨(hg.vertices v).toNat_total hbound, (hg.vertices v).window⟩

theorem hits_edge {j : EdgeId} {e : Edge α} (he : g.edge? j = some e) :
    e.hits.total.toNat = (retained es).countP (fun path => (e.source, e.dest) ∈ legs path) ∧
      e.hits.window.toNat = (current es).countP (fun path => (e.source, e.dest) ∈ legs path) := by
  rw [hits_eq_edgeHits hg.arranged he]
  exact ⟨(hg.edges _ _).toNat_total hbound, (hg.edges _ _).window⟩

/-- Where every retained route that passes a vertex has one leg on the given side of it, the edges
on that side have been taken as often as the vertex has been passed. -/
theorem hitsAt_eq (side : VertexId × VertexId → VertexId) (v : VertexId)
    (honce : ∀ path ∈ retained es, ((legs path).map side).count v = if v ∈ path then 1 else 0) :
    g.hitsAt side v = (retained es).countP fun path => v ∈ path := by
  have htotal : ∀ e ∈ g.edges.toList,
      e.hits.total.toNat = (retained es).countP fun path => e.pair ∈ legs path := by
    intro e he
    exact (hg.hits_edge hbound (hg.arranged.edge?_id (Array.mem_toList_iff.mp he))).1
  -- both sums count the edges at the vertex together with the routes that take them
  calc g.hitsAt side v
      = ((g.edges.toList.filter fun e => side e.pair = v).map fun e =>
          (retained es).countP fun path => e.pair ∈ legs path).sum :=
        congrArg List.sum (List.map_congr_left fun e he => htotal e (List.mem_of_mem_filter he))
    _ = ((retained es).map fun path =>
          (g.edges.toList.filter fun e => side e.pair = v).countP
            fun e => e.pair ∈ legs path).sum := sum_countP_comm _ _ _
    _ = (retained es).countP fun path => v ∈ path := by
        refine sum_map_eq_countP _ fun path hpath => ?_
        rw [countP_edges hg.arranged (hg.route_of_mem hpath).nodup (hg.legs_subset hpath),
          honce path hpath]
        simp

theorem inbound_eq {v : VertexId} (hv : v ≠ Markers.fixed.start) :
    g.hitsAt Prod.snd v = (retained es).countP fun path => v ∈ path := by
  refine hg.hitsAt_eq hbound Prod.snd v fun path hpath => ?_
  have hroute := hg.route_of_mem hpath
  rw [map_snd_legs, (hroute.nodup.sublist (List.tail_sublist path)).count]
  simp only [hroute.mem_tail_iff hv]

theorem outbound_eq {v : VertexId} (hv : ∀ aborted, v ≠ terminal aborted) :
    g.hitsAt Prod.fst v = (retained es).countP fun path => v ∈ path := by
  refine hg.hitsAt_eq hbound Prod.fst v fun path hpath => ?_
  have hroute := hg.route_of_mem hpath
  rw [map_fst_legs, (hroute.nodup.sublist (List.dropLast_sublist path)).count]
  simp only [hroute.mem_dropLast_iff hv]

omit hbound

theorem countP_start {keep : Option Close → Bool} :
    (pathsWhere keep es).countP (fun path => Markers.fixed.start ∈ path) =
      (pathsWhere keep es).length :=
  List.countP_eq_length.mpr fun _ hpath => decide_eq_true (hg.route_of_mem hpath).start_mem

/-- Every transaction ends in one of the two terminal markers. -/
theorem countP_terminals {keep : Option Close → Bool} :
    (pathsWhere keep es).length =
      (pathsWhere keep es).countP (fun path => Markers.fixed.commit ∈ path) +
        (pathsWhere keep es).countP (fun path => Markers.fixed.abort ∈ path) := by
  rw [List.length_eq_countP_add_countP fun path => Markers.fixed.commit ∈ path]
  congr 1
  refine List.countP_congr fun path hpath => ?_
  have hroute := hg.route_of_mem hpath
  have hcommit : Markers.fixed.commit ∈ path ↔ _ :=
    hroute.terminal_mem_iff hg.marked hg.seeded false
  have habort : Markers.fixed.abort ∈ path ↔ _ :=
    hroute.terminal_mem_iff hg.marked hg.seeded true
  -- which of the two markers is on the route is told by its end
  obtain ⟨mid, aborted, hshape, -⟩ := hroute.shape
  rw [hshape, List.getLast?_concat, ← hshape] at hcommit habort
  cases aborted with
  | false =>
      have hne : ¬Markers.fixed.abort ∈ path := fun hmem => by cases habort.mp hmem
      simp [hne, hcommit.mpr rfl]
  | true =>
      have hne : ¬Markers.fixed.commit ∈ path := fun hmem => by cases hcommit.mp hmem
      simp [hne, habort.mpr rfl]

end Tallied

/-! ## Histories -/

variable [Weight α]

/-- After any history of learning, recomputing and resetting a fresh graph, the lifetime hits count
the retained transactions and the window hits the current ones, for every vertex and every edge.
So hits are conserved: at a query vertex on either side, and between the markers. Handles are
32-bit words and counters 64-bit words, hence the two bounds. -/
theorem hits_performAll (p : Procedure) (s : ModelSettings α) (cs : List Change)
    (hcs : ∀ c ∈ cs, c.Observes)
    (hbound : (learned ((fresh p s).ledger cs)).length < UInt64.size)
    (hfit : ((fresh p s).performAll cs).Fits) :
    let g := (fresh p s).performAll cs
    let es := (fresh p s).ledger cs
    (∀ v x, g.vertex? v = some x →
      x.hits.total.toNat = (retained es).countP (fun path => v ∈ path) ∧
        x.hits.window.toNat = (current es).countP (fun path => v ∈ path)) ∧
    (∀ j e, g.edge? j = some e →
      e.hits.total.toNat = (retained es).countP (fun path => (e.source, e.dest) ∈ legs path) ∧
        e.hits.window.toNat = (current es).countP (fun path => (e.source, e.dest) ∈ legs path)) ∧
    (∀ v x, g.vertex? v = some x → x.state.isQuery = true →
      x.hits.total.toNat = g.hitsAt Prod.snd v ∧ x.hits.total.toNat = g.hitsAt Prod.fst v) ∧
    ∃ start commit abort, g.vertex? Markers.fixed.start = some start ∧
      g.vertex? Markers.fixed.commit = some commit ∧
      g.vertex? Markers.fixed.abort = some abort ∧
      start.hits.total.toNat = commit.hits.total.toNat + abort.hits.total.toNat ∧
      g.observedSinceRecompute = start.hits.window := by
  intro g es
  have hg : g.Tallied es := tallied_performAll cs (tallied_fresh p s) hcs hbound hfit
  refine ⟨fun v x => hg.hits_vertex hbound, fun j e => hg.hits_edge hbound,
    fun v x hx hquery => ?_, ?_⟩
  · obtain ⟨key, hkey⟩ := x.state.isQuery_iff.mp hquery
    have hstate : g.state? v = some (.query key) := by rw [state?_eq hx, hkey]
    have hstart := hg.marked.ne_start hg.seeded hstate
    have hterminal := hg.marked.ne_terminal hg.seeded hstate rfl
    rw [hg.inbound_eq hbound hstart, hg.outbound_eq hbound hterminal]
    exact ⟨(hg.hits_vertex hbound hx).1, (hg.hits_vertex hbound hx).1⟩
  · obtain ⟨start, hstart, -⟩ := Option.map_eq_some_iff.mp (hg.marked.start hg.seeded)
    obtain ⟨commit, hcommit, -⟩ := Option.map_eq_some_iff.mp (hg.marked.commit hg.seeded)
    obtain ⟨abort, habort, -⟩ := Option.map_eq_some_iff.mp (hg.marked.abort hg.seeded)
    obtain ⟨htotal, hwindow⟩ := hg.hits_vertex hbound hstart
    refine ⟨start, commit, abort, hstart, hcommit, habort, ?_, ?_⟩
    · rw [htotal, (hg.hits_vertex hbound hcommit).1, (hg.hits_vertex hbound habort).1]
      exact hg.countP_start.trans hg.countP_terminals
    · rw [← UInt64.toNat_inj, hg.observedSinceRecompute_eq, hwindow]
      exact hg.countP_start.symm

def transfer : Procedure :=
  ⟨⟨1⟩, "transfer", [⟨⟨10⟩, "debit"⟩, ⟨⟨11⟩, "credit"⟩, ⟨⟨12⟩, "audit"⟩]⟩

/-- A transaction of `transfer` that runs the given statements on partition zero. -/
def transferTrace (txn : UInt64) (aborted : Bool) (statements : List UInt32) : TransactionTrace :=
  ⟨⟨txn⟩, ⟨1⟩, 0, 9, aborted, some ⟨0⟩, statements.map fun s => ⟨⟨s⟩, 1, 2, none⟩⟩

/-- Two transactions, of which the reset throws one away, a refused one, and one after the reset. -/
def transferHistory : List Change :=
  [.learn (transferTrace 1 false [10, 11]) .recorded, .learn (transferTrace 2 true [13]) .recorded,
    .recompute, .learn (transferTrace 3 true [10]) .recorded, .resetCounters,
    .learn (transferTrace 4 true [10, 11]) .recorded]

theorem hits_performAll_transfer :
    (∀ c ∈ transferHistory, c.Observes) ∧
      (learned ((fresh transfer (.standard : ModelSettings Rat)).ledger transferHistory)).length =
        3 ∧
      ∃ start commit abort,
        ((fresh transfer (.standard : ModelSettings Rat)).performAll transferHistory).vertex? ⟨0⟩ =
          some start ∧
        start.hits.total.toNat = commit + abort ∧ start.hits.total = 2 ∧
          start.hits.window = 1 := by
  have hobserves : ∀ c ∈ transferHistory, c.Observes := by
    simp only [transferHistory, List.forall_mem_cons]
    exact ⟨.learn _ _, .learn _ _, .recompute, .learn _ _, .resetCounters, .learn _ _, nofun⟩
  have hlength :
      (learned ((fresh transfer (.standard : ModelSettings Rat)).ledger transferHistory)).length =
        3 := by decide +kernel
  have hfit :
      ((fresh transfer (.standard : ModelSettings Rat)).performAll transferHistory).Fits :=
    ⟨by decide +kernel, by decide +kernel⟩
  obtain ⟨hvertex, -, -, start, commit, abort, hstart, -, -, hends, -⟩ :=
    hits_performAll transfer .standard transferHistory hobserves (by rw [hlength]; decide) hfit
  refine ⟨hobserves, hlength, start, _, _, hstart, hends, ?_, ?_⟩
  · rw [← UInt64.toNat_inj, (hvertex _ _ hstart).1]
    decide +kernel
  · rw [← UInt64.toNat_inj, (hvertex _ _ hstart).2]
    decide +kernel

end Graph

end PathForecast
