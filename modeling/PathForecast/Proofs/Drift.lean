import Mathlib
import PathForecast.Graph.Prediction
import PathForecast.Proofs.Batches
import PathForecast.Proofs.Evidence
import PathForecast.Proofs.Shares
import PathForecast.Proofs.SinglePartition

/-!
# Drift of an unchanging workload

Where all transactions run the same statements on the same partitions and end alike, every one of
them takes the same vertices, so its share is one in every window. The lifetime share of a vertex is
taken over the transactions learned before the last recompute or reset, though, also over those
that a reset has thrown away, and so it falls behind. Main statement:
`shouldRecompute_performAll_iff`, which says when a recompute is recommended for such a workload.
-/

set_option autoImplicit false

namespace PathForecast

open Ledger

/-! ## Shapes -/

/-- What transactions of one kind have in common: statements, partitions and outcome. -/
structure Shape where
  steps : List (StatementId × PartitionSet)
  aborted : Bool
deriving DecidableEq

namespace Shape

def keys (shape : Shape) : List VertexKey := keysAlong ∅ (fun _ => 0) shape.steps

/-- A trace is refused, or it has the shape. -/
def Fits (shape : Shape) (p : Procedure) (t : TransactionTrace × Estimator) : Prop :=
  ∀ visits ∈ (t.1.resolve p t.2).toOption,
    visits.map (fun visit => (visit.key.statement, visit.key.partitions)) = shape.steps ∧
      t.1.aborted = shape.aborted

instance (shape : Shape) (p : Procedure) (t : TransactionTrace × Estimator) :
    Decidable (shape.Fits p t) :=
  inferInstanceAs (Decidable (∀ visits ∈ (t.1.resolve p t.2).toOption, _))

theorem Fits.keys_eq {shape : Shape} {p : Procedure} {t : TransactionTrace × Estimator}
    (h : shape.Fits p t) {visits : List Visit} (hvisits : t.1.resolve p t.2 = .ok visits) :
    visits.map (·.key) = shape.keys := by
  have hsteps := (h visits (by rw [hvisits]; rfl)).1
  rw [(itinerary_of_resolve hvisits).eq_keysAlong, List.map_map, keys, ← hsteps]
  rfl

end Shape

namespace Graph

variable {α : Type}

/-- A graph all of whose transactions have one shape. -/
structure Uniform (g : Graph α) (es : List Event) (shape : Shape) : Prop where
  tallied : g.Tallied es
  catalogued : g.Catalogued
  keys : g.AllKeys (· ∈ shape.keys)
  paths : ∀ path ∈ learned es, ∃ mid,
    path = Markers.fixed.start :: mid ++ [terminal shape.aborted] ∧
      List.Forall₂ g.Holds mid shape.keys

namespace Uniform

variable {g : Graph α} {es : List Event} {shape : Shape} (h : g.Uniform es shape)

include h

/-- Every transaction passes every vertex but the marker in which none of them ends. -/
theorem mem_path_iff {v : VertexId} {s : VertexState} (hv : g.state? v = some s)
    {path : List VertexId} (hpath : path ∈ learned es) :
    v ∈ path ↔ v ≠ terminal (!shape.aborted) := by
  obtain ⟨mid, hshape, hholds⟩ := h.paths path hpath
  have hmarked := h.tallied.marked
  have hseeded := h.tallied.seeded
  have hsame : ∀ {w s}, g.state? w = some s → g.state? v = some s → v = w := fun hw hv =>
    h.catalogued.single _ _ _ (place?_eq hv) (place?_eq hw)
  constructor
  · rintro hmem rfl
    have hend := ((h.tallied.routes path hpath).terminal_mem_iff hmarked hseeded _).mp hmem
    rw [hshape, List.getLast?_concat, Option.some.injEq] at hend
    revert hend
    cases shape.aborted <;> decide
  · intro hne
    have hend : ∀ aborted, v = terminal aborted → v ∈ path := by
      rintro aborted rfl
      have heq : aborted = shape.aborted := by
        by_contra hother
        exact hne (congrArg terminal (Bool.eq_not_of_ne hother))
      rw [hshape, heq]
      exact List.mem_append_right _ List.mem_cons_self
    cases s with
    | start =>
        rw [hshape, hsame (hmarked.start hseeded) hv]
        exact List.mem_cons_self
    | query key =>
        obtain ⟨w, hw, hkey⟩ := exists_mem_holds hholds key (h.keys v key hv)
        have hvkey : g.Holds v key := ⟨.query key, hv, VertexState.hasKey_self key _⟩
        rw [g.holds_iff_place?] at hkey hvkey
        rw [hshape, h.catalogued.single v w _ hvkey hkey]
        exact List.mem_append_left _ (List.mem_cons_of_mem _ hw)
    | commit => exact hend false (hsame (hmarked.commit hseeded) hv)
    | abort => exact hend true (hsame (hmarked.abort hseeded) hv)

/-- The hits of a vertex that every transaction passes. -/
theorem hits_of_ne {v : VertexId} {x : Vertex α} (hx : g.vertex? v = some x)
    (hv : v ≠ terminal (!shape.aborted)) :
    x.hits.folded.toNat = (settled es).length ∧ x.hits.window.toNat = (current es).length := by
  have hall : ∀ {keep : Option Close → Bool},
      (pathsWhere keep es).countP (fun path => v ∈ path) = (pathsWhere keep es).length := by
    refine List.countP_eq_length.mpr fun path hpath => decide_eq_true ?_
    exact (h.mem_path_iff (state?_eq hx) ((pathsWhere_sublist _ es).subset hpath)).mpr hv
  rw [hits_eq_vertexHits hx, (h.tallied.vertices v).folded, (h.tallied.vertices v).window]
  exact ⟨hall, hall⟩

theorem hits_of_eq {x : Vertex α} (hx : g.vertex? (terminal (!shape.aborted)) = some x) :
    x.hits.folded.toNat = 0 ∧ x.hits.window.toNat = 0 := by
  have hnone : ∀ {keep : Option Close → Bool},
      (pathsWhere keep es).countP (fun path => terminal (!shape.aborted) ∈ path) = 0 := by
    refine List.countP_eq_zero.mpr fun path hpath hmem => ?_
    exact (h.mem_path_iff (state?_eq hx) ((pathsWhere_sublist _ es).subset hpath)).mp
      (of_decide_eq_true hmem) rfl
  rw [hits_eq_vertexHits hx, (h.tallied.vertices _).folded, (h.tallied.vertices _).window]
  exact ⟨hnone, hnone⟩

end Uniform

/-! ## Histories of one shape -/

section History

variable [Weight α]

/-- Every learned path is that of a trace of the history. -/
theorem exists_traces (cs : List Change) :
    ∀ {g : Graph α}, g.Marked → (∀ c ∈ cs, c.Observes) → (g.performAll cs).Fits →
      ∀ path ∈ learned (g.ledger cs), ∃ t ∈ taught cs, (g.performAll cs).Traces path t := by
  induction cs with
  | nil => exact fun _ _ _ => nofun
  | cons c cs ih =>
      intro g hg hcs hfit path hpath
      have hstep := hg.perform_growth c
      have hlater := growth_performAll cs (hstep.marked hg)
      rw [ledger, learned_append] at hpath
      rcases List.mem_append.mp hpath with hnow | hrest
      · -- the first change has learned the path, and the later ones leave it where it is
        cases hcs c List.mem_cons_self with
        | learn t estimator =>
            rw [event?] at hnow
            cases hlearn : g.learn t estimator with
            | error fault =>
                rw [hlearn] at hnow
                cases hnow
            | ok r =>
                rw [hlearn] at hnow
                rw [List.mem_singleton.mp hnow]
                rw [performAll_cons, perform_of_learn hlearn] at hfit ⊢
                rw [perform_of_learn hlearn] at hlater
                exact ⟨(t, estimator), List.mem_cons_self,
                  hlater.traces (traces_of_learn hg hlearn (hlater.fits hfit))⟩
        | recompute => cases hnow
        | resetCounters => cases hnow
      · obtain ⟨t, ht, htraces⟩ := ih (hstep.marked hg)
          (fun d hd => hcs d (List.mem_cons_of_mem _ hd)) hfit path hrest
        have htaught : taught cs ⊆ taught (c :: cs) := by
          rw [taught, taught, List.filterMap_cons]
          split
          · exact List.Subset.refl _
          · exact List.subset_cons_self _ _
        exact ⟨t, htaught ht, htraces⟩

theorem uniform_performAll (p : Procedure) (s : ModelSettings α) (shape : Shape)
    (cs : List Change) (hcs : ∀ c ∈ cs, c.Observes) (hshape : ∀ t ∈ taught cs, shape.Fits p t)
    (hbound : (learned ((fresh p s).ledger cs)).length < UInt64.size)
    (hfit : ((fresh p s).performAll cs).Fits) :
    ((fresh p s).performAll cs).Uniform ((fresh p s).ledger cs) shape := by
  have hfresh := tallied_fresh p s
  have hgrow := growth_performAll cs hfresh.marked
  have hprocedure : ((fresh p s).performAll cs).procedure = p := hgrow.procedure_eq
  refine ⟨tallied_performAll cs hfresh hcs hbound hfit, ?_, ?_, fun path hpath => ?_⟩
  · exact hgrow.catalogued hfresh.marked (fun _ => catalogued_seed (marked_empty p s) rfl) hfit
  · refine allKeys_performAll cs hfresh.marked (allKeys_fresh p s) hcs ?_
    intro t estimator hmem visits hvisits visit hvisit
    have ht : (t, estimator) ∈ taught cs := List.mem_filterMap.mpr ⟨_, hmem, rfl⟩
    rw [← (hshape _ ht).keys_eq (eq_ok_of_toOption hvisits)]
    exact List.mem_map_of_mem hvisit
  · obtain ⟨t, ht, visits, mid, hvisits, hpath, hholds⟩ :=
      exists_traces cs hfresh.marked hcs hfit path hpath
    rw [hprocedure] at hvisits
    have haborted := (hshape t ht visits (by rw [hvisits]; rfl)).2
    rw [(hshape t ht).keys_eq hvisits] at hholds
    rw [haborted] at hpath
    exact ⟨mid, hpath, hholds⟩

end History

end Graph

/-! ## Staleness -/

/-- How far a lifetime share may fall behind a recent share of one. -/
theorem drift_iff (tolerance : Rat) {folded lifetime : Nat} (hpos : 0 < folded)
    (hle : folded ≤ lifetime) :
    tolerance < Weight.abs (1 - (folded : Rat) / lifetime) / (folded / lifetime) ↔
      tolerance * folded < (lifetime - folded : Nat) := by
  have hfolded : (0 : Rat) < folded := Nat.cast_pos.mpr hpos
  have hlifetime : (0 : Rat) < lifetime := Nat.cast_pos.mpr (hpos.trans_le hle)
  have hshare : (folded : Rat) / lifetime ≤ 1 := (div_le_one hlifetime).mpr (Nat.cast_le.mpr hle)
  have habs : Weight.abs (1 - (folded : Rat) / lifetime) = 1 - folded / lifetime :=
    if_neg (not_lt.mpr (sub_nonneg.mpr hshare))
  have hdrift : (1 - (folded : Rat) / lifetime) / (folded / lifetime) =
      (lifetime - folded) / folded := by
    field_simp
  rw [habs, hdrift, lt_div_iff₀ hfolded, Nat.cast_sub hle]

/-- A vertex that all recent transactions have passed is stale if its lifetime share has fallen
behind by more than the tolerance allows. -/
theorem Vertex.isStale_iff {x : Vertex Rat} {observed lifetime : UInt64} (tolerance : Rat)
    (hwindow : x.hits.window = observed) (hle : x.hits.folded.toNat ≤ lifetime.toNat) :
    x.isStale observed tolerance lifetime = true ↔
      0 < observed.toNat ∧ (x.hits.folded.toNat = 0 ∨
        tolerance * x.hits.folded.toNat < (lifetime.toNat - x.hits.folded.toNat : Nat)) := by
  have hzero : ∀ n : UInt64, n = 0 ↔ n.toNat = 0 := fun n => UInt64.toNat_inj.symm
  rw [isStale, hwindow]
  split
  · next hnone => simp [hnone]
  · next hsome =>
      rw [hzero] at hsome
      have hobserved : 0 < observed.toNat := Nat.pos_of_ne_zero hsome
      split
      · next hnew =>
          -- without a lifetime there are no folded hits either
          have hfolded : x.hits.folded.toNat = 0 := by
            rcases hnew with hnew | hnew
            · exact (hzero _).mp hnew
            · have hlifetime := (hzero _).mp hnew
              omega
          have hlt : 0 < observed := UInt64.lt_iff_toNat_lt.mpr hobserved
          simp [hfolded, hobserved, hlt]
      · next hold =>
          rw [not_or, hzero, hzero] at hold
          have hrecent : (Weight.ratio observed observed : Rat) = 1 := by
            rw [ratio_rat, div_self (Nat.cast_ne_zero.mpr hsome)]
          have hdrift := drift_iff tolerance (Nat.pos_of_ne_zero hold.1) hle
          rw [hrecent, ratio_rat]
          exact decide_eq_true_iff.trans
            (hdrift.trans ((and_iff_right hobserved).trans (or_iff_right hold.1)).symm)

namespace Graph

theorem shouldRecompute_iff {g : Graph Rat} (hfit : g.Fits)
    (hsettings : g.settings.staleProportion = 1 / 2) (hsize : 0 < g.vertices.size)
    (observed : UInt64) (tolerance : Rat) :
    g.shouldRecompute observed tolerance = true ↔
      g.vertices.size ≤ 2 * g.staleCount observed tolerance := by
  have hle : g.staleCount observed tolerance ≤ g.vertices.size := by
    rw [← Array.length_toList]
    exact List.countP_le_length
  have hword : ∀ {n : Nat}, n ≤ g.vertices.size → n.toUInt64.toNat = n := by
    intro n hn
    have hvertices := hfit.vertices
    refine Nat.mod_eq_of_lt ?_
    simp only [UInt32.size] at hvertices
    omega
  have hempty : g.vertices.isEmpty = false := by
    rw [Array.isEmpty_eq_false_iff]
    exact Array.ne_empty_of_size_pos hsize
  have hcast : (0 : Rat) < g.vertices.size := Nat.cast_pos.mpr hsize
  rw [shouldRecompute, hempty, if_neg (by decide), hsettings]
  show decide ((1 / 2 : Rat) ≤ _) = true ↔ _
  rw [decide_eq_true_iff, ratio_rat, hword hle, hword (Nat.le_refl _), le_div_iff₀ hcast]
  rw [← Nat.cast_le (α := Rat)]
  push_cast
  constructor
  · intro hhalf
    linarith
  · intro hhalf
    linarith

namespace Uniform

variable {g : Graph Rat} {es : List Event} {shape : Shape} (h : g.Uniform es shape)

include h

/-- The transactions learned before the last recompute or reset. -/
theorem transactionsAtRecompute_eq :
    g.transactionsAtRecompute.toNat = (settled es).length + (abandoned es).length := by
  have hall : ∀ l : List (List VertexId), l.countP (fun _ => true) = l.length := fun l =>
    List.countP_eq_length.mpr fun _ _ => rfl
  have hretained := countP_retained (fun _ => true) es
  have hlearned := countP_retained_add_abandoned (fun _ => true) es
  rw [hall, hall, hall] at hretained hlearned
  have hsince := h.tallied.sinceRecompute
  rw [h.tallied.transactionCount] at hsince
  omega

theorem isStale_iff {v : VertexId} {x : Vertex Rat} (hx : g.vertex? v = some x)
    (tolerance : Rat) :
    x.isStale g.observedSinceRecompute tolerance g.transactionsAtRecompute = true ↔
      v ≠ terminal (!shape.aborted) ∧ 0 < (current es).length ∧
        (settled es = [] ∨ tolerance * (settled es).length < (abandoned es).length) := by
  have hobserved := h.tallied.observedSinceRecompute_eq
  have hlifetime := h.transactionsAtRecompute_eq
  by_cases hv : v = terminal (!shape.aborted)
  · subst hv
    obtain ⟨hfolded, hwindow⟩ := h.hits_of_eq hx
    have hfolded' : x.hits.folded = 0 := UInt64.toNat_inj.mp hfolded
    have hwindow' : x.hits.window = 0 := UInt64.toNat_inj.mp hwindow
    simp [Vertex.isStale, hfolded', hwindow']
  · obtain ⟨hfolded, hwindow⟩ := h.hits_of_ne hx hv
    have hsame : x.hits.window = g.observedSinceRecompute :=
      UInt64.toNat_inj.mp (hwindow.trans hobserved.symm)
    rw [Vertex.isStale_iff tolerance hsame (by omega), hobserved, hfolded, hlifetime,
      Nat.add_sub_cancel_left, List.length_eq_zero_iff]
    exact (and_iff_right hv).symm

/-- If the workload counts as drifted, all vertices but one are stale, and else none is. -/
theorem shouldRecompute_iff (hfit : g.Fits) (hsettings : g.settings.staleProportion = 1 / 2)
    (tolerance : Rat) :
    g.shouldRecompute g.observedSinceRecompute tolerance = true ↔
      0 < (current es).length ∧
        (settled es = [] ∨ tolerance * (settled es).length < (abandoned es).length) := by
  have hsize : 3 ≤ g.vertices.size :=
    h.tallied.marked.slot_lt h.tallied.seeded (v := Markers.fixed.abort) (.inr (.inr rfl))
  have hstale : ∀ x ∈ g.vertices.toList,
      x.isStale g.observedSinceRecompute tolerance g.transactionsAtRecompute = true ↔ _ :=
    fun x hx => h.isStale_iff (h.tallied.arranged.vertex?_id (Array.mem_toList_iff.mp hx)) tolerance
  rw [Graph.shouldRecompute_iff hfit hsettings (by omega), staleCount]
  constructor
  · intro hmany
    by_contra hsteady
    have hnone := List.countP_eq_zero.mpr fun x hx hdrift => hsteady ((hstale x hx).mp hdrift).2
    omega
  · intro hdrifted
    have hothers : g.vertices.toList.countP (fun x => decide ¬x.id = terminal (!shape.aborted)) =
        g.vertices.toList.countP fun x =>
          x.isStale g.observedSinceRecompute tolerance g.transactionsAtRecompute := by
      refine List.countP_congr fun x hx => ?_
      rw [hstale x hx, decide_eq_true_iff]
      exact (and_iff_left hdrifted).symm
    have hone :
        g.vertices.toList.countP (fun x => decide (x.id = terminal (!shape.aborted))) ≤ 1 := by
      have hids := List.nodup_iff_count_le_one.mp h.tallied.arranged.nodup_ids
        (terminal (!shape.aborted))
      rw [List.count, List.countP_map] at hids
      exact hids
    have hsplit := g.vertices.toList.length_eq_countP_add_countP
      fun x => decide (x.id = terminal (!shape.aborted))
    simp only [Array.length_toList, decide_eq_true_eq] at hsplit
    omega

end Uniform

/-- After any history of learning, recomputing and resetting a fresh graph with the standard
settings in which all accepted traces have one shape, a recompute is recommended exactly if there
are transactions since the last recompute or reset and either no recompute has gone over any
transaction or resets have thrown more of them away than the tolerance allows for. So without
resets no recompute is recommended for such a workload. -/
theorem shouldRecompute_performAll_iff (p : Procedure) (shape : Shape) (cs : List Change)
    (hcs : ∀ c ∈ cs, c.Observes) (hshape : ∀ t ∈ taught cs, shape.Fits p t)
    (hbound : (learned ((fresh p (.standard : ModelSettings Rat)).ledger cs)).length <
      UInt64.size)
    (hfit : ((fresh p (.standard : ModelSettings Rat)).performAll cs).Fits) (tolerance : Rat) :
    let g := (fresh p (.standard : ModelSettings Rat)).performAll cs
    let es := (fresh p (.standard : ModelSettings Rat)).ledger cs
    (g.shouldRecompute g.observedSinceRecompute tolerance = true ↔
      0 < (current es).length ∧
        (settled es = [] ∨ tolerance * (settled es).length < (abandoned es).length)) := by
  intro g es
  have huniform : g.Uniform es shape :=
    uniform_performAll p .standard shape cs hcs hshape hbound hfit
  have hsettings : g.settings = .standard := settings_performAll p .standard cs
  refine huniform.shouldRecompute_iff hfit ?_ tolerance
  rw [hsettings]
  decide +kernel

/-- One transaction over and over. After a recompute a reset throws one of them away. -/
def steadyHistory : List Change :=
  [.learn (transferTrace 1 false [10]) .recorded, .recompute,
    .learn (transferTrace 2 false [10]) .recorded, .resetCounters,
    .learn (transferTrace 3 false [10]) .recorded]

def steadyShape : Shape := ⟨[(⟨10⟩, .singleton ⟨0⟩)], false⟩

/-- The reset makes an unchanging workload look like drift. -/
theorem shouldRecompute_steady :
    (∀ t ∈ taught steadyHistory, steadyShape.Fits transfer t) ∧
      let g := (fresh transfer (.standard : ModelSettings Rat)).performAll steadyHistory
      g.shouldRecompute g.observedSinceRecompute (1 / 10) = true := by
  refine ⟨by decide +kernel, ?_⟩
  decide +kernel

/-- A tolerance of one bears with as many transactions thrown away as there are settled ones. -/
theorem shouldRecompute_performAll_iff_steady :
    let g := (fresh transfer (.standard : ModelSettings Rat)).performAll steadyHistory
    g.shouldRecompute g.observedSinceRecompute (1 / 10) = true ∧
      g.shouldRecompute g.observedSinceRecompute 1 = false := by
  intro g
  have hobserves : ∀ c ∈ steadyHistory, c.Observes := by
    simp only [steadyHistory, List.forall_mem_cons]
    exact ⟨.learn _ _, .recompute, .learn _ _, .resetCounters, .learn _ _, nofun⟩
  have hshape : ∀ t ∈ taught steadyHistory, steadyShape.Fits transfer t := by decide +kernel
  have hfew : (learned ((fresh transfer (.standard : ModelSettings Rat)).ledger
      steadyHistory)).length < UInt64.size := by decide +kernel
  have hfit : g.Fits := ⟨by decide +kernel, by decide +kernel⟩
  have hiff := shouldRecompute_performAll_iff transfer steadyShape steadyHistory hobserves hshape
    hfew hfit
  have hcurrent : (current ((fresh transfer (.standard : ModelSettings Rat)).ledger
      steadyHistory)).length = 1 := by decide +kernel
  have hsettled : (settled ((fresh transfer (.standard : ModelSettings Rat)).ledger
      steadyHistory)).length = 1 := by decide +kernel
  have habandoned : (abandoned ((fresh transfer (.standard : ModelSettings Rat)).ledger
      steadyHistory)).length = 1 := by decide +kernel
  have hsome : settled ((fresh transfer (.standard : ModelSettings Rat)).ledger
      steadyHistory) ≠ [] := List.ne_nil_of_length_pos (by rw [hsettled]; decide)
  refine ⟨(hiff (1 / 10)).mpr ⟨by rw [hcurrent]; decide, .inr ?_⟩, ?_⟩
  · rw [hsettled, habandoned]
    norm_num
  · refine Bool.eq_false_iff.mpr fun hrecommended => ?_
    obtain ⟨-, hnone | hlt⟩ := (hiff 1).mp hrecommended
    · exact hsome hnone
    · rw [hsettled, habandoned] at hlt
      norm_num at hlt

end Graph

end PathForecast
