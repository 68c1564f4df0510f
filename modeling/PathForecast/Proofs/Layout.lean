import Mathlib.Tactic
import PathForecast.Graph.History

/-!
# The layout of a graph

Counting, timing and forecasting leave alone which vertices and edges a graph has: its *layout*.
Look-ups by identity and by pair read the layout only.
-/

set_option autoImplicit false

namespace PathForecast

/-! ## Vertices and edges without their counters -/

/-- What counting leaves alone in a vertex. -/
structure VertexFrame where
  id : VertexId
  element : ElementId
  state : VertexState
  successors : Table VertexId EdgeId

/-- What counting leaves alone in an edge. -/
structure EdgeFrame where
  id : EdgeId
  element : ElementId
  source : VertexId
  dest : VertexId

variable {α : Type}

def Vertex.frame (v : Vertex α) : VertexFrame := ⟨v.id, v.element, v.state, v.successors⟩

def Edge.frame (e : Edge α) : EdgeFrame := ⟨e.id, e.element, e.source, e.dest⟩

theorem Vertex.frame_eq_iff (v w : Vertex α) :
    v.frame = w.frame ↔
      v.id = w.id ∧ v.element = w.element ∧ v.state = w.state ∧ v.successors = w.successors := by
  simp [Vertex.frame]

theorem Edge.frame_eq_iff (e f : Edge α) :
    e.frame = f.frame ↔
      e.id = f.id ∧ e.element = f.element ∧ e.source = f.source ∧ e.dest = f.dest := by
  simp [Edge.frame]

/-- A sum that does not wrap. -/
theorem toNat_add_of_lt {a b : UInt64} (h : a.toNat + b.toNat < UInt64.size) :
    (a + b).toNat = a.toNat + b.toNat := by
  rw [UInt64.toNat_add]
  exact Nat.mod_eq_of_lt h

theorem VertexId.slot_inj {v w : VertexId} : v.slot = w.slot ↔ v = w := by
  cases v
  cases w
  simp [VertexId.slot, UInt32.toNat_inj]

theorem EdgeId.slot_inj {e f : EdgeId} : e.slot = f.slot ↔ e = f := by
  cases e
  cases f
  simp [EdgeId.slot, UInt32.toNat_inj]

@[simp] theorem Vertex.frame_recordHit (v : Vertex α) : v.recordHit.frame = v.frame := rfl

@[simp] theorem Vertex.frame_foldHits (v : Vertex α) : v.foldHits.frame = v.frame := rfl

@[simp] theorem Vertex.frame_discardHits (v : Vertex α) : v.discardHits.frame = v.frame := rfl

@[simp] theorem Vertex.frame_recordElapsed (v : Vertex α) (key : SampleKey) (duration : UInt64) :
    (v.recordElapsed key duration).frame = v.frame := rfl

@[simp] theorem Vertex.frame_settleTimes (v : Vertex α) (finished : List SampleKey) :
    (v.settleTimes finished).frame = v.frame := rfl

@[simp] theorem Vertex.frame_setForecast (v : Vertex α) (f : Forecast α) :
    (v.setForecast f).frame = v.frame := rfl

@[simp] theorem Edge.frame_recordHit (e : Edge α) : e.recordHit.frame = e.frame := rfl

@[simp] theorem Edge.frame_foldHits (e : Edge α) : e.foldHits.frame = e.frame := rfl

@[simp] theorem Edge.frame_discardHits (e : Edge α) : e.discardHits.frame = e.frame := rfl

@[simp] theorem Vertex.frame_clearForecast [Weight α] (v : Vertex α) :
    v.clearForecast.frame = v.frame := rfl

@[simp] theorem Edge.frame_derive [Weight α] (e : Edge α) (sourceHits : UInt64) :
    (e.derive sourceHits).frame = e.frame := by
  unfold Edge.derive
  split <;> rfl

def VertexState.hasKey (s : VertexState) (key : VertexKey) (usePast : Bool) : Bool :=
  match s with
  | .query k => k.same key usePast
  | _ => false

namespace Graph

def state? (g : Graph α) (v : VertexId) : Option VertexState := (g.vertex? v).map (·.state)

theorem state?_eq {g : Graph α} {v : VertexId} {x : Vertex α} (hx : g.vertex? v = some x) :
    g.state? v = some x.state := by
  rw [state?, hx, Option.map_some]

theorem findKey_eq (g : Graph α) (key : VertexKey) :
    g.findKey key = (g.bucket key.statement).find? fun v =>
      (g.state? v).any (·.hasKey key g.settings.usePastPartitions) := by
  unfold findKey state?
  congr 1
  funext v
  cases g.vertex? v <;> rfl

/-! ## Layouts -/

/-- A graph without its counters. -/
structure Layout (α : Type) where
  procedure : Procedure
  settings : ModelSettings α
  seeded : Bool
  vertices : Array VertexFrame
  edges : Array EdgeFrame
  nextElement : UInt64
  index : Table StatementId (Array VertexId)
  successorMemo : Table VertexId (List VertexId)

def layout (g : Graph α) : Layout α where
  procedure := g.procedure
  settings := g.settings
  seeded := g.seeded
  vertices := g.vertices.map (·.frame)
  edges := g.edges.map (·.frame)
  nextElement := g.nextElement
  index := g.index
  successorMemo := g.successorMemo

/-- Changing one entry does not show through a view that the change keeps. -/
theorem map_modify_of_keeps {β γ : Type} (view : β → γ) (xs : Array β) (i : Nat) {f : β → β}
    (hf : ∀ x, view (f x) = view x) : (xs.modify i f).map view = xs.map view := by
  apply Array.ext_getElem?
  intro j
  simp only [Array.getElem?_map, Array.getElem?_modify]
  split
  · simp [Option.map_map, Function.comp_def, hf]
  · rfl

theorem layout_updateVertex (g : Graph α) (v : VertexId) {f : Vertex α → Vertex α}
    (hf : ∀ x, (f x).frame = x.frame) : (g.updateVertex v f).layout = g.layout := by
  simp [layout, updateVertex, map_modify_of_keeps Vertex.frame g.vertices v.slot hf]

theorem layout_updateEdge (g : Graph α) (e : EdgeId) {f : Edge α → Edge α}
    (hf : ∀ x, (f x).frame = x.frame) : (g.updateEdge e f).layout = g.layout := by
  simp [layout, updateEdge, map_modify_of_keeps Edge.frame g.edges e.slot hf]

@[simp] theorem layout_resetCounters (g : Graph α) : g.resetCounters.layout = g.layout := by
  simp [layout, resetCounters, Function.comp_def]

@[simp] theorem layout_countTransaction (g : Graph α) : g.countTransaction.layout = g.layout := rfl

@[simp] theorem layout_recordMisprediction (g : Graph α) :
    g.recordMisprediction.layout = g.layout := rfl

@[simp] theorem layout_enter (g : Graph α) (sample : SampleKey) (elapsed : UInt64) :
    (g.enter sample elapsed).layout = g.layout :=
  g.layout_updateVertex _ fun _ => rfl

/-! ## Looking up in graphs of one layout -/

theorem map_frame_of_layout {g k : Graph α} (h : k.layout = g.layout) (i : Nat) :
    k.vertices[i]?.map (·.frame) = g.vertices[i]?.map (·.frame) := by
  have hv : k.vertices.map (·.frame) = g.vertices.map (·.frame) := congrArg Layout.vertices h
  rw [← Array.getElem?_map, hv, Array.getElem?_map]

theorem map_edgeFrame_of_layout {g k : Graph α} (h : k.layout = g.layout) (j : Nat) :
    k.edges[j]?.map (·.frame) = g.edges[j]?.map (·.frame) := by
  have he : k.edges.map (·.frame) = g.edges.map (·.frame) := congrArg Layout.edges h
  rw [← Array.getElem?_map, he, Array.getElem?_map]

theorem size_vertices_of_layout {g k : Graph α} (h : k.layout = g.layout) :
    k.vertices.size = g.vertices.size := by
  simpa [layout] using congrArg (·.vertices.size) h

theorem size_edges_of_layout {g k : Graph α} (h : k.layout = g.layout) :
    k.edges.size = g.edges.size := by
  simpa [layout] using congrArg (·.edges.size) h

/-- A vertex of one graph is, counters aside, the vertex of the other in the same slot. -/
theorem vertex_of_layout {g k : Graph α} (h : k.layout = g.layout) {i : Nat} {y : Vertex α}
    (hy : k.vertices[i]? = some y) : ∃ x, g.vertices[i]? = some x ∧ x.frame = y.frame := by
  have hf := map_frame_of_layout h i
  rw [hy] at hf
  exact Option.map_eq_some_iff.mp hf.symm

theorem edge_of_layout {g k : Graph α} (h : k.layout = g.layout) {j : Nat} {f : Edge α}
    (hf : k.edges[j]? = some f) : ∃ e, g.edges[j]? = some e ∧ e.frame = f.frame := by
  have he := map_edgeFrame_of_layout h j
  rw [hf] at he
  exact Option.map_eq_some_iff.mp he.symm

theorem edgeBetween_of_layout {g k : Graph α} (h : k.layout = g.layout) (source dest : VertexId) :
    k.edgeBetween source dest = g.edgeBetween source dest := by
  have hf : ∀ l : Graph α, l.edgeBetween source dest =
      (l.vertices[source.slot]?.map (·.frame)).bind fun x => x.successors.get? dest := by
    intro l
    simp [edgeBetween, vertex?, Vertex.frame, Option.bind_map]
  rw [hf, hf, map_frame_of_layout h]

variable [Weight α]

@[simp] theorem layout_closeWindow (g : Graph α) : g.closeWindow.layout = g.layout := by
  simp [layout, closeWindow, Function.comp_def]

@[simp] theorem layout_deriveProbabilities (g : Graph α) :
    g.deriveProbabilities.layout = g.layout := by
  have h : g.deriveProbabilities.edges.map (·.frame) = g.edges.map (·.frame) := by
    simp only [deriveProbabilities, Array.map_map, Array.map_inj_left]
    intro e _
    simp only [Function.comp_def]
    split <;> simp
  simp only [layout, h]
  rfl

@[simp] theorem layout_propagate (g : Graph α) : g.propagate.layout = g.layout := by
  have h : g.propagate.vertices.map (·.frame) = g.vertices.map (·.frame) := by
    apply Array.ext_getElem?
    intro i
    simp only [propagate, Array.getElem?_map, Array.getElem?_mapIdx, Option.map_map]
    congr 1
    funext v
    simp only [Function.comp_def]
    split <;> simp
  simp only [layout, h]
  rfl

end Graph

end PathForecast
