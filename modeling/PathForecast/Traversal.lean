/-!
# Depth-first traversal

Visits every vertex of a finite directed graph, roots in the order of their slots and successors
in the order of their edges, on an explicit stack. `order` lists the vertices as they are closed,
the last one first: whatever a vertex leads to is closed before it, unless the edge runs back to
a vertex that is still on the stack. `backEdges` counts those edges.
-/

set_option autoImplicit false

namespace PathForecast

/-- How far the traversal has come with a vertex. -/
inductive Mark where
  | unseen
  | waiting
  | closed
deriving DecidableEq

/-- A traversal under way. -/
structure Traversal where
  marks : Array Mark
  /-- The vertices entered and not yet closed, each with the successors still to be looked at. -/
  stack : List (Nat × List Nat)
  /-- The closed vertices, the last one first. -/
  order : List Nat
  /-- Edges that led to a vertex on the stack. -/
  backEdges : Nat
  /-- Steps taken. -/
  steps : Nat

namespace Traversal

def fresh (n : Nat) : Traversal := ⟨Array.replicate n .unseen, [], [], 0, 0⟩

/-- The successors of a vertex. -/
def successorsIn (out : Array (List Nat)) (v : Nat) : List Nat := out[v]?.getD []

def push (t : Traversal) (out : Array (List Nat)) (v : Nat) : Traversal :=
  { t with marks := t.marks.setIfInBounds v .waiting, stack := (v, successorsIn out v) :: t.stack }

/-- Looks at one successor of the vertex on top of the stack, or closes that vertex. -/
def step (t : Traversal) (out : Array (List Nat)) : Traversal :=
  match t.stack with
  | [] => t
  | (v, []) :: rest =>
      { t with
        marks := t.marks.setIfInBounds v .closed
        stack := rest
        order := v :: t.order
        steps := t.steps + 1 }
  | (v, d :: ds) :: rest =>
      let t : Traversal := { t with stack := (v, ds) :: rest, steps := t.steps + 1 }
      match t.marks[d]? with
      | some .unseen => t.push out d
      | some .waiting => { t with backEdges := t.backEdges + 1 }
      | some .closed => t
      | none => t

/-- Steps until the stack is empty, at most `fuel` times. -/
def drain (out : Array (List Nat)) : Nat → Traversal → Traversal
  | 0, t => t
  | fuel + 1, t => if t.stack.isEmpty then t else drain out fuel (t.step out)

/-- One step for each vertex and one for each edge: no traversal takes more. -/
def budget (out : Array (List Nat)) : Nat :=
  out.toList.foldr (fun successors n => successors.length + 1 + n) 0

/-- Visits what can be reached from a root and was not seen before. -/
def visit (out : Array (List Nat)) (t : Traversal) (root : Nat) : Traversal :=
  if t.marks[root]? = some .unseen then drain out (budget out) (t.push out root) else t

/-- Visits every vertex. -/
def run (out : Array (List Nat)) : Traversal :=
  (List.range out.size).foldl (visit out) (fresh out.size)

end Traversal

end PathForecast
