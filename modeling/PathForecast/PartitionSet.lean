import PathForecast.Ids

/-!
# Partition sets

A set of partitions is the ascending list of its members: two sets with the same members are
equal, whatever the order in which they were given.
-/

set_option autoImplicit false

namespace PathForecast

/-- A finite set of partitions, listed in ascending order. -/
structure PartitionSet where
  ids : List PartitionId
  ascending : Ascending ids
deriving DecidableEq

namespace PartitionSet

def empty : PartitionSet := ⟨[], List.Pairwise.nil⟩

instance : EmptyCollection PartitionSet := ⟨empty⟩

instance : Inhabited PartitionSet := ⟨empty⟩

instance : Membership PartitionId PartitionSet := ⟨fun s p => p ∈ s.ids⟩

instance (p : PartitionId) (s : PartitionSet) : Decidable (p ∈ s) :=
  inferInstanceAs (Decidable (p ∈ s.ids))

def insert (p : PartitionId) (s : PartitionSet) : PartitionSet :=
  ⟨insertAscending p s.ids, s.ascending.insert p⟩

def singleton (p : PartitionId) : PartitionSet := ⟨[p], List.pairwise_singleton _ _⟩

def ofList (ps : List PartitionId) : PartitionSet := ps.foldl (fun s p => s.insert p) empty

def union (s t : PartitionSet) : PartitionSet := t.ids.foldl (fun s p => s.insert p) s

instance : Union PartitionSet := ⟨union⟩

def size (s : PartitionSet) : Nat := s.ids.length

def isEmpty (s : PartitionSet) : Bool := s.ids.isEmpty

/-- Every member of the first set is a member of the second. -/
def isSubset (s t : PartitionSet) : Bool := s.ids.all (fun p => decide (p ∈ t))

/-- The set as messages show it. -/
def label (s : PartitionSet) : String :=
  "\x7b" ++ ", ".intercalate (s.ids.map PartitionId.label) ++ "\x7d"

/-! ## Membership -/

/-- Sets are told apart by their members alone, because each has one list of ids. -/
theorem ext {s t : PartitionSet} (h : ∀ p, p ∈ s ↔ p ∈ t) : s = t := by
  cases s with
  | mk xs hx =>
      cases t with
      | mk ys hy =>
          have hxy : xs = ys := Ascending.ext hx hy h
          subst hxy
          rfl

@[simp] theorem not_mem_empty (p : PartitionId) : p ∉ (∅ : PartitionSet) := List.not_mem_nil

@[simp] theorem mem_insert (p q : PartitionId) (s : PartitionSet) :
    p ∈ s.insert q ↔ p = q ∨ p ∈ s :=
  mem_insertAscending q p s.ids

@[simp] theorem mem_singleton (p q : PartitionId) : p ∈ singleton q ↔ p = q :=
  List.mem_singleton

theorem mem_foldl_insert (p : PartitionId) (ps : List PartitionId) (s : PartitionSet) :
    p ∈ ps.foldl (fun s p => s.insert p) s ↔ p ∈ s ∨ p ∈ ps := by
  induction ps generalizing s with
  | nil => simp
  | cons q qs ih =>
      rw [List.foldl_cons, ih, mem_insert, List.mem_cons, or_assoc]
      exact or_left_comm

@[simp] theorem mem_ofList (p : PartitionId) (ps : List PartitionId) : p ∈ ofList ps ↔ p ∈ ps := by
  have h := mem_foldl_insert p ps empty
  exact h.trans (or_iff_right (not_mem_empty p))

@[simp] theorem mem_union (p : PartitionId) (s t : PartitionSet) : p ∈ s ∪ t ↔ p ∈ s ∨ p ∈ t :=
  mem_foldl_insert p t.ids s

theorem isSubset_iff (s t : PartitionSet) : s.isSubset t = true ↔ ∀ p, p ∈ s → p ∈ t := by
  simp [isSubset, Membership.mem]

end PartitionSet

end PathForecast
