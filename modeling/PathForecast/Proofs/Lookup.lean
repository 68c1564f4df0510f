import PathForecast.Proofs.Itinerary
import PathForecast.Proofs.Listing
import PathForecast.Proofs.RoundTrip
import PathForecast.Snapshot.File

/-!
# Looking up the vertices of a file

A reader restores the order of sets and maps but takes the list of vertices as it stands in the
file, in either format. `vertex?` halves that list all the same. What it finds is there; that it
finds everything needs ids that do not descend, and for ids that are not repeated that is exactly
what it needs: two searches part only at an item between their keys, so whoever finds both keys
finds them in their order. Main statement: `lookup_ofFile`.
-/

set_option autoImplicit false

namespace PathForecast

namespace Snapshot

section Search

variable {β : Type} {items : Array β} {key : β → Nat}

theorem exists_of_filter {target low size : Nat} {x : β}
    (h : (items[low]?).filter (fun x => key x == target) = some x) :
    ∃ i, items[i]? = some x ∧ key x = target ∧ low ≤ i ∧ i < low + max 1 size := by
  obtain ⟨hx, hkey⟩ := Option.filter_eq_some_iff.mp h
  exact ⟨low, hx, beq_iff_eq.mp hkey, le_rfl, by omega⟩

/-- Whatever the order of the items, a search ends inside its window, at an item with the key. -/
theorem exists_of_search (target : Nat) {x : β} :
    ∀ {fuel low size : Nat}, search items key target fuel low size = some x →
      ∃ i, items[i]? = some x ∧ key x = target ∧ low ≤ i ∧ i < low + max 1 size
  | 0, _, _, h => exists_of_filter h
  | fuel + 1, low, size, h => by
      rw [search] at h
      split at h
      · exact exists_of_filter h
      · next hsize =>
          dsimp only at h
          split at h
          · cases h
          · split at h
            all_goals
              obtain ⟨i, hx, hkey, hlow, hhigh⟩ := exists_of_search target h
              exact ⟨i, hx, hkey, by omega, by omega⟩

/-- If no key descends, an item of the window is enough for its key to be found. -/
theorem search_isSome
    (hkeys : ∀ (i j : Nat) (x y : β), items[i]? = some x → items[j]? = some y → i ≤ j →
      key x ≤ key y) (target : Nat) :
    ∀ {fuel low size i : Nat} {x : β}, size ≤ fuel + 1 → low + size ≤ items.size →
      items[i]? = some x → key x = target → low ≤ i → i < low + size →
      (search items key target fuel low size).isSome = true
  | 0, low, size, i, x, hfuel, _, hx, hkey, hlow, hhigh => by
      obtain rfl : i = low := by omega
      simp [search, hx, hkey]
  | fuel + 1, low, size, i, x, hfuel, hbound, hx, hkey, hlow, hhigh => by
      rw [search]
      split
      · obtain rfl : i = low := by omega
        simp [hx, hkey]
      · next hsize =>
          have hmiddle : low + size / 2 < items.size := by omega
          have hitem := Array.getElem?_eq_getElem hmiddle
          simp only [hitem]
          split
          · next hless =>
              have hbefore : i < low + size / 2 := by
                by_contra hafter
                have := hkeys _ i _ x hitem hx (not_lt.mp hafter)
                omega
              exact search_isSome hkeys target (by omega) (by omega) hx hkey hlow (by omega)
          · next hless =>
              rcases lt_or_ge i (low + size / 2) with hbefore | hafter
              · -- an item before the middle has the key only if the middle has it too
                have hle := hkeys i _ x _ hx hitem hbefore.le
                exact search_isSome hkeys target (by omega) (by omega) hitem (by omega) le_rfl
                  (by omega)
              · exact search_isSome hkeys target (by omega) (by omega) hx hkey hafter (by omega)

section Distinct

variable (hkeys : ∀ (i j : Nat) (x y : β), items[i]? = some x → items[j]? = some y →
  key x = key y → i = j)

include hkeys

/-- A search for the key of an item ends at the item itself. -/
theorem window_of_found {i : Nat} {x : β} (hx : items[i]? = some x) {fuel low size : Nat}
    (hfound : (search items key (key x) fuel low size).isSome = true) :
    low ≤ i ∧ i < low + max 1 size := by
  obtain ⟨y, hy⟩ := Option.isSome_iff_exists.mp hfound
  obtain ⟨j, hj, hkey, hwindow⟩ := exists_of_search (key x) hy
  rwa [hkeys i j x y hx hj hkey.symm]

/-- Of two items that are both found, the earlier one has the smaller key. -/
theorem key_lt_of_found {i j : Nat} {x y : β} (hx : items[i]? = some x) (hy : items[j]? = some y)
    (hij : i < j) :
    ∀ {fuel low size : Nat}, (search items key (key x) fuel low size).isSome = true →
      (search items key (key y) fuel low size).isSome = true → key x < key y
  | 0, low, size, hfx, hfy => by
      -- without fuel only the first item of the window is looked at
      have hi : low ≤ i ∧ i < low + max 1 1 :=
        window_of_found hkeys hx (show (search items key (key x) 0 low 1).isSome = true from hfx)
      have hj : low ≤ j ∧ j < low + max 1 1 :=
        window_of_found hkeys hy (show (search items key (key y) 0 low 1).isSome = true from hfy)
      omega
  | fuel + 1, low, size, hfx, hfy => by
      have hi := window_of_found hkeys hx hfx
      have hj := window_of_found hkeys hy hfy
      have hsize : ¬ size ≤ 1 := by omega
      simp only [search, if_neg hsize] at hfx hfy
      cases hitem : items[low + size / 2]? with
      | none => simp [hitem] at hfx
      | some z =>
          simp only [hitem] at hfx hfy
          -- the searches part at `z` if its key lies between the two
          by_cases hlessx : key x < key z
          · by_cases hlessy : key y < key z
            · rw [if_pos hlessx] at hfx
              rw [if_pos hlessy] at hfy
              exact key_lt_of_found hx hy hij hfx hfy
            · omega
          · rw [if_neg hlessx] at hfx
            by_cases hlessy : key y < key z
            · rw [if_pos hlessy] at hfy
              have hi := window_of_found hkeys hx hfx
              have hj := window_of_found hkeys hy hfy
              omega
            · rw [if_neg hlessy] at hfy
              exact key_lt_of_found hx hy hij hfx hfy

end Distinct

end Search

variable {α : Type}

def Sorted (s : Snapshot α) : Prop := s.vertices.Pairwise fun x y => rank x.id ≤ rank y.id

instance (s : Snapshot α) : Decidable s.Sorted :=
  inferInstanceAs (Decidable (s.vertices.Pairwise fun x y => rank x.id ≤ rank y.id))

/-- Exactly the ids of the listed vertices are found. -/
def Finds (s : Snapshot α) : Prop :=
  ∀ v, (s.vertex? v).isSome = true ↔ ∃ y ∈ s.vertices, y.id = v

theorem mem_of_vertex? {s : Snapshot α} {v : VertexId} {y : SnapshotVertex α}
    (h : s.vertex? v = some y) : y ∈ s.vertices ∧ y.id = v := by
  obtain ⟨i, hi, hkey, -⟩ := exists_of_search _ h
  rw [List.getElem?_toArray] at hi
  exact ⟨List.mem_of_getElem? hi, rank_eq_iff.mp hkey⟩

theorem Sorted.finds {s : Snapshot α} (h : s.Sorted) : s.Finds := by
  intro v
  constructor
  · intro hfound
    obtain ⟨y, hy⟩ := Option.isSome_iff_exists.mp hfound
    exact ⟨y, mem_of_vertex? hy⟩
  · rintro ⟨y, hy, rfl⟩
    obtain ⟨i, hi⟩ := List.mem_iff_getElem?.mp hy
    have hlt := (List.getElem?_eq_some_iff.mp hi).1
    refine search_isSome (i := i) (x := y) ?_ _ (Nat.le_succ _) (by omega) (by simpa using hi) rfl
      (Nat.zero_le i) (by simpa using hlt)
    intro i j x z hx hz hij
    rw [List.getElem?_toArray] at hx hz
    rcases hij.eq_or_lt with rfl | hij
    · rw [hx] at hz
      cases hz
      exact le_rfl
    · obtain ⟨hi, rfl⟩ := List.getElem?_eq_some_iff.mp hx
      obtain ⟨hj, rfl⟩ := List.getElem?_eq_some_iff.mp hz
      exact List.pairwise_iff_getElem.mp h i j hi hj hij

theorem Finds.sorted {s : Snapshot α} (hids : (s.vertices.map (·.id)).Nodup) (h : s.Finds) :
    s.Sorted := by
  refine List.pairwise_iff_getElem.mpr fun i j hi hj hij => ?_
  have hfound : ∀ y ∈ s.vertices, (s.vertex? y.id).isSome = true := fun y hy =>
    (h y.id).mpr ⟨y, hy, rfl⟩
  refine (key_lt_of_found ?_ (by simp) (by simp) hij (hfound _ (List.getElem_mem hi))
    (hfound _ (List.getElem_mem hj))).le
  intro i j x y hx hy hkey
  rw [List.getElem?_toArray] at hx hy
  have hi := (List.getElem?_eq_some_iff.mp hx).1
  have hsame : (s.vertices.map (·.id))[i]? = (s.vertices.map (·.id))[j]? := by
    rw [List.getElem?_map, List.getElem?_map, hx, hy, Option.map_some, Option.map_some,
      rank_eq_iff.mp hkey]
  exact (List.getElem?_inj (by simpa using hi) hids).mp hsame

/-- A snapshot is read from a file as it is, with its vertices in any order. -/
theorem ofFile_toBinary {s : Snapshot Binary64} (hlength : s.toBinary.length ≤ maxBinarySize) :
    ofFile s.toBinary = .ok s := by
  have hpayload : (Codec.snapshot.write s).length < UInt64.size := by
    have hlimit : maxBinarySize < UInt64.size := by decide
    rw [toBinary, List.length_append] at hlength
    omega
  have hread := (Codec.lossless_snapshot s hpayload).reads.whole []
  rw [List.append_nil] at hread
  have hmagic : magic.isPrefixOf s.toBinary = true := rfl
  have hbinary : ofBinary s.toBinary = .ok s := by
    rw [toBinary, ofBinary_header hlength, hread]
  rw [ofFile, if_pos hmagic, hbinary]

/-- Whatever file a snapshot was read from: only listed vertices are found, each under its own id;
all of them if their ids do not descend; and if no id is repeated, only then. What the ids are like
is up to the file. -/
theorem lookup_ofFile (s : Snapshot Binary64) :
    (∀ v y, s.vertex? v = some y → y ∈ s.vertices ∧ y.id = v) ∧ (s.Sorted → s.Finds) ∧
      ((s.vertices.map (·.id)).Nodup → s.Finds → s.Sorted) ∧
      (s.toBinary.length ≤ maxBinarySize → ofFile s.toBinary = .ok s) :=
  ⟨fun _ _ => mem_of_vertex?, Sorted.finds, Finds.sorted, ofFile_toBinary⟩

def blank (id : VertexId) (kind : VertexKind) : SnapshotVertex Binary64 where
  id := id
  element := ⟨0⟩
  kind := kind
  statement := none
  index := 0
  partitions := ∅
  past := ∅
  totalHits := 0
  windowHits := 0
  averageRemaining := none
  forecast := ⟨⟨0⟩, ⟨0⟩, ⟨0⟩, ∅⟩

def pair (first second : SnapshotVertex Binary64) : Snapshot Binary64 where
  procedure := ⟨1⟩
  procedureName := "pay"
  transactionCount := 0
  recomputeCount := 0
  vertices := [first, second]
  edges := []

def ordered : Snapshot Binary64 := pair (blank ⟨0⟩ .start) (blank ⟨1⟩ .commit)

def misordered : Snapshot Binary64 := pair (blank ⟨1⟩ .commit) (blank ⟨0⟩ .start)

theorem lookup_ofFile_pair :
    (ordered.Sorted ∧ ordered.Finds ∧ ofFile ordered.toBinary = .ok ordered) ∧
      ¬ misordered.Sorted ∧ ¬ misordered.Finds ∧ ofFile misordered.toBinary = .ok misordered := by
  obtain ⟨-, hfinds, hsorted, hread⟩ := lookup_ofFile ordered
  have hordered : ordered.Sorted := by decide
  have hfound : ordered.Finds := hfinds hordered
  refine ⟨⟨hsorted (by decide) hfound, hfound, hread (by decide +kernel)⟩, by decide, ?_, ?_⟩
  · exact fun h => absurd ((lookup_ofFile misordered).2.2.1 (by decide) h) (by decide)
  · exact (lookup_ofFile misordered).2.2.2 (by decide +kernel)

deriving instance DecidableEq for Forecast, SnapshotVertex, SnapshotEdge, Snapshot

/-- Files of both formats are accepted whose snapshot lists a vertex that is not found. -/
theorem misordered_missed :
    ofFile (SnapshotFormat.binary.encode misordered) = .ok misordered ∧
      ofFile (SnapshotFormat.json.encode misordered) = .ok misordered ∧
      (∃ y ∈ misordered.vertices, y.id = ⟨1⟩) ∧ misordered.vertex? ⟨1⟩ = none := by
  refine ⟨eq_ok_of_toOption ?_, eq_ok_of_toOption ?_, ⟨_, List.mem_cons_self, rfl⟩, ?_⟩
  all_goals decide +kernel

end Snapshot

end PathForecast
