import PathForecast.Proofs.Route

/-!
# Ledgers

The ledger of a history lists what it did to the counts: a path for each learned trace, and a close
for each recompute or reset. A transaction is retained unless the first close after it is a reset.
Main statements: `pathsWhere_append`, what comes later decides about what was learned before, and
`countP_retained`, a retained transaction is settled or current and not both.
-/

set_option autoImplicit false

namespace PathForecast

/-- What ends an observation window. -/
inductive Close where
  | recompute
  | reset
deriving DecidableEq

/-- An entry of a ledger. -/
inductive Event where
  | learned (path : List VertexId)
  | closed (how : Close)
deriving DecidableEq

/-- The changes that a ledger accounts for. -/
inductive Change.Observes : Change → Prop
  | learn (t : TransactionTrace) (estimator : Estimator) : Observes (.learn t estimator)
  | recompute : Observes .recompute
  | resetCounters : Observes .resetCounters

/-! ## Paths by the end of their window -/

namespace Ledger

/-- How the window that is open at the start of a ledger ends, if it does. -/
def firstClose : List Event → Option Close
  | [] => none
  | .learned _ :: es => firstClose es
  | .closed how :: _ => some how

/-- The learned paths whose window ends in a way that `keep` accepts, in order. -/
def pathsWhere (keep : Option Close → Bool) : List Event → List (List VertexId)
  | [] => []
  | .learned path :: es =>
      if keep (firstClose es) then path :: pathsWhere keep es else pathsWhere keep es
  | .closed _ :: es => pathsWhere keep es

def learned : List Event → List (List VertexId) := pathsWhere fun _ => true

/-- The learned paths that no reset has thrown away. -/
def retained : List Event → List (List VertexId) := pathsWhere fun how => how ≠ some .reset

/-- The learned paths that a recompute has folded into the lifetime counts. -/
def settled : List Event → List (List VertexId) := pathsWhere fun how => how = some .recompute

/-- The paths learned since the last recompute or reset. -/
def current : List Event → List (List VertexId) := pathsWhere fun how => how = none

theorem firstClose_append (es fs : List Event) :
    firstClose (es ++ fs) = (firstClose es).or (firstClose fs) := by
  induction es with
  | nil => rfl
  | cons e es ih =>
      cases e with
      | learned path => exact ih
      | closed how => rfl

theorem pathsWhere_append (keep : Option Close → Bool) (es fs : List Event) :
    pathsWhere keep (es ++ fs) =
      pathsWhere (fun how => keep (how.or (firstClose fs))) es ++ pathsWhere keep fs := by
  induction es with
  | nil => rfl
  | cons e es ih =>
      cases e with
      | closed how => exact ih
      | learned path =>
          simp only [List.cons_append, pathsWhere, firstClose_append, ih]
          split <;> rfl

theorem pathsWhere_sublist (keep : Option Close → Bool) (es : List Event) :
    (pathsWhere keep es).Sublist (learned es) := by
  induction es with
  | nil => exact List.Sublist.refl _
  | cons e es ih =>
      cases e with
      | closed how => exact ih
      | learned path =>
          show (pathsWhere keep (.learned path :: es)).Sublist (path :: learned es)
          rw [pathsWhere]
          split
          · exact ih.cons_cons path
          · exact ih.cons path

theorem learned_append (es fs : List Event) : learned (es ++ fs) = learned es ++ learned fs :=
  pathsWhere_append _ es fs

theorem learned_learned (es : List Event) (path : List VertexId) :
    learned (es ++ [.learned path]) = learned es ++ [path] := learned_append es _

theorem learned_closed (es : List Event) (how : Close) :
    learned (es ++ [.closed how]) = learned es :=
  (learned_append es _).trans (List.append_nil _)

theorem settled_learned (es : List Event) (path : List VertexId) :
    settled (es ++ [.learned path]) = settled es := by
  simp [settled, pathsWhere_append, firstClose, pathsWhere]

theorem current_learned (es : List Event) (path : List VertexId) :
    current (es ++ [.learned path]) = current es ++ [path] := by
  simp [current, pathsWhere_append, firstClose, pathsWhere]

theorem current_closed (es : List Event) (how : Close) : current (es ++ [.closed how]) = [] := by
  have hnone : ∀ es, pathsWhere (fun _ => false) es = [] := by
    intro es
    induction es with
    | nil => rfl
    | cons e es ih => cases e <;> simp [pathsWhere, ih]
  simp [current, pathsWhere_append, firstClose, pathsWhere, hnone]

theorem settled_recompute (es : List Event) :
    settled (es ++ [.closed .recompute]) = retained es := by
  refine (pathsWhere_append _ es _).trans ((List.append_nil _).trans ?_)
  exact congrArg (pathsWhere · es) (funext fun how => by rcases how with _ | _ | _ <;> rfl)

theorem settled_reset (es : List Event) : settled (es ++ [.closed .reset]) = settled es := by
  refine (pathsWhere_append _ es _).trans ((List.append_nil _).trans ?_)
  exact congrArg (pathsWhere · es) (funext fun how => by rcases how with _ | _ | _ <;> rfl)

theorem countP_pathsWhere_or (φ : List VertexId → Bool) {keep keep' : Option Close → Bool}
    (hdisjoint : ∀ how, ¬(keep how = true ∧ keep' how = true)) (es : List Event) :
    (pathsWhere (fun how => keep how || keep' how) es).countP φ =
      (pathsWhere keep es).countP φ + (pathsWhere keep' es).countP φ := by
  induction es with
  | nil => rfl
  | cons e es ih =>
      cases e with
      | closed how => exact ih
      | learned path =>
          -- the path is kept by one of the tests or by neither
          have hboth := hdisjoint (firstClose es)
          cases hkeep : keep (firstClose es) <;> cases hkeep' : keep' (firstClose es)
          · simp [pathsWhere, hkeep, hkeep', ih]
          · simp only [pathsWhere, hkeep, hkeep', Bool.or_true, if_true, List.countP_cons, ih]
            simp [Nat.add_assoc]
          · simp only [pathsWhere, hkeep, hkeep', Bool.true_or, if_true, List.countP_cons, ih]
            simp [Nat.add_right_comm]
          · exact absurd ⟨hkeep, hkeep'⟩ hboth

/-- A retained transaction is settled or current, and not both. -/
theorem countP_retained (φ : List VertexId → Bool) (es : List Event) :
    (retained es).countP φ = (settled es).countP φ + (current es).countP φ := by
  have hdisjoint : ∀ how : Option Close,
      ¬(decide (how = some .recompute) = true ∧ decide (how = none) = true) := by
    rintro (_ | _ | _) <;> simp
  refine Eq.trans ?_ (countP_pathsWhere_or φ hdisjoint es)
  refine congrArg (fun keep => (pathsWhere keep es).countP φ) (funext fun how => ?_)
  rcases how with _ | _ | _ <;> rfl

theorem length_retained_le (es : List Event) : (retained es).length ≤ (learned es).length :=
  (pathsWhere_sublist _ es).length_le

end Ledger

end PathForecast
