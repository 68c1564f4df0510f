import PathForecast.Order

/-!
# Tables

A finite map from ranked keys to values, kept as a list of entries that ascends by key. Equal
tables are equal lists, so a table can be compared, printed and walked in key order.
-/

set_option autoImplicit false

namespace PathForecast

/-- Inserts or replaces the entry of a key. -/
def insertEntry {κ ν : Type} [Ranked κ] (k : κ) (v : ν) : List (κ × ν) → List (κ × ν)
  | [] => [(k, v)]
  | e :: r =>
      if rank k < rank e.1 then (k, v) :: e :: r
      else if rank k = rank e.1 then (k, v) :: r
      else e :: insertEntry k v r

/-- The value of a key. -/
def findEntry {κ ν : Type} [Ranked κ] (k : κ) : List (κ × ν) → Option ν
  | [] => none
  | e :: r => if rank e.1 = rank k then some e.2 else findEntry k r

/-- A finite map, its entries ascending by key. -/
structure Table (κ ν : Type) [Ranked κ] where
  entries : List (κ × ν)
  ascending : Ascending (entries.map (·.1))

namespace Table

variable {κ ν : Type} [Ranked κ]

def empty : Table κ ν := ⟨[], List.Pairwise.nil⟩

instance : EmptyCollection (Table κ ν) := ⟨empty⟩

instance : Inhabited (Table κ ν) := ⟨empty⟩

/-- Inserting an entry inserts its key, so a table keeps its order. -/
theorem map_fst_insertEntry (k : κ) (v : ν) (es : List (κ × ν)) :
    (insertEntry k v es).map (·.1) = insertAscending k (es.map (·.1)) := by
  induction es with
  | nil => rfl
  | cons e r ih =>
      simp only [insertEntry, insertAscending, List.map_cons]
      split
      · rfl
      · split
        · next h => simp [rank_eq_iff.mp h]
        · simp [ih]

def insert (t : Table κ ν) (k : κ) (v : ν) : Table κ ν where
  entries := insertEntry k v t.entries
  ascending := by
    rw [map_fst_insertEntry]
    exact t.ascending.insert k

def get? (t : Table κ ν) (k : κ) : Option ν := findEntry k t.entries

def erase (t : Table κ ν) (k : κ) : Table κ ν where
  entries := t.entries.filter (fun e => decide (rank e.1 ≠ rank k))
  ascending := t.ascending.sublist (List.filter_sublist.map _)

def ofList (es : List (κ × ν)) : Table κ ν := es.foldl (fun t e => t.insert e.1 e.2) empty

def keys (t : Table κ ν) : List κ := t.entries.map (·.1)

def values (t : Table κ ν) : List ν := t.entries.map (·.2)

def size (t : Table κ ν) : Nat := t.entries.length

/-- Replaces every value, seeing its key; the keys stay. -/
def mapValues {μ : Type} (t : Table κ ν) (f : κ → ν → μ) : Table κ μ where
  entries := t.entries.map (fun e => (e.1, f e.1 e.2))
  ascending := by simpa [List.map_map, Function.comp_def] using t.ascending

/-- The same value for every key of an ascending list. -/
def ofKeys (keys : List κ) (h : Ascending keys) (v : ν) : Table κ ν where
  entries := keys.map (fun k => (k, v))
  ascending := by simpa [List.map_map, Function.comp_def] using h

instance [DecidableEq κ] [DecidableEq ν] : DecidableEq (Table κ ν) := fun a b =>
  if h : a.entries = b.entries then
    .isTrue (by cases a; cases b; cases h; rfl)
  else
    .isFalse (fun hab => h (hab ▸ rfl))

/-! ## Look-up after a change -/

theorem findEntry_insertEntry [DecidableEq κ] (k k' : κ) (v : ν) (es : List (κ × ν)) :
    findEntry k' (insertEntry k v es) = if k' = k then some v else findEntry k' es := by
  induction es with
  | nil => simp [insertEntry, findEntry, rank_eq_iff, eq_comm]
  | cons e r ih =>
      simp only [insertEntry]
      by_cases h : k' = k
      · subst h
        split
        · simp [findEntry]
        · split
          · simp [findEntry]
          · next hne =>
              have hne' : rank e.1 ≠ rank k' := fun e => hne e.symm
              simp [findEntry, hne', ih]
      · have hkk : rank k ≠ rank k' := fun e => h (rank_eq_iff.mp e).symm
        split
        · simp [findEntry, hkk]
        · split
          · next heq =>
              have hne : rank e.1 ≠ rank k' := heq ▸ hkk
              simp [findEntry, hkk, hne]
          · simp [findEntry, ih, h]

theorem mem_insertEntry {k : κ} {v : ν} {e : κ × ν}
    {es : List (κ × ν)} (h : e ∈ insertEntry k v es) : e = (k, v) ∨ e ∈ es := by
  induction es with
  | nil => exact .inl (List.mem_singleton.mp h)
  | cons d es ih =>
      rw [insertEntry] at h
      split at h
      · exact List.mem_cons.mp h
      · split at h
        · exact (List.mem_cons.mp h).imp_right (List.mem_cons_of_mem d)
        · rcases List.mem_cons.mp h with rfl | h
          · exact .inr List.mem_cons_self
          · exact (ih h).imp_right (List.mem_cons_of_mem d)

@[simp] theorem get?_empty (k : κ) : (empty : Table κ ν).get? k = none := rfl

/-- The last value that was put under a key is the one that counts. -/
theorem get?_insert [DecidableEq κ] (t : Table κ ν) (k k' : κ) (v : ν) :
    (t.insert k v).get? k' = if k' = k then some v else t.get? k' :=
  findEntry_insertEntry k k' v t.entries

/-- Only the erased key is lost. -/
theorem get?_erase [DecidableEq κ] (t : Table κ ν) (k k' : κ) :
    (t.erase k).get? k' = if k' = k then none else t.get? k' := by
  show findEntry k' (t.entries.filter fun e => decide (rank e.1 ≠ rank k)) = _
  rw [get?]
  induction t.entries with
  | nil => simp [findEntry]
  | cons e es ih =>
      rw [List.filter_cons, findEntry]
      by_cases he : rank e.1 = rank k
      · -- the entry is dropped; it was that of the erased key
        simp only [he, ne_eq, not_true_eq_false, decide_false, Bool.false_eq_true, if_false, ih]
        by_cases hk : k' = k
        · simp [hk]
        · simp [hk, rank_eq_iff, Ne.symm hk]
      · simp only [he, ne_eq, not_false_eq_true, decide_true, if_true, findEntry, ih]
        by_cases hk : k' = k
        · simp [hk, he]
        · simp [hk]

/-- A table of new values has the keys of the old one. -/
theorem get?_mapValues {μ : Type} (t : Table κ ν) (f : κ → ν → μ) (k : κ) :
    (t.mapValues f).get? k = (t.get? k).map (f k) := by
  show findEntry k (t.entries.map _) = (findEntry k t.entries).map (f k)
  induction t.entries with
  | nil => rfl
  | cons e r ih =>
      rw [List.map_cons, findEntry, findEntry]
      split
      · next h => rw [← rank_eq_iff.mp h, Option.map_some]
      · exact ih

theorem get?_ofKeys [DecidableEq κ] (keys : List κ) (h : Ascending keys) (v : ν) (k : κ) :
    (ofKeys keys h v).get? k = if k ∈ keys then some v else none := by
  show findEntry k (keys.map fun k => (k, v)) = _
  clear h
  induction keys with
  | nil => rfl
  | cons l keys ih =>
      rw [List.map_cons, findEntry, ih]
      by_cases hk : k = l
      · simp [hk]
      · have hne : rank l ≠ rank k := fun heq => hk (rank_eq_iff.mp heq).symm
        simp [hk, hne]

theorem mem_keys_insert (t : Table κ ν) (k k' : κ) (v : ν) :
    k' ∈ (t.insert k v).keys ↔ k' = k ∨ k' ∈ t.keys := by
  show k' ∈ (insertEntry k v t.entries).map (·.1) ↔ _
  rw [map_fst_insertEntry, mem_insertAscending]
  rfl

end Table

end PathForecast
