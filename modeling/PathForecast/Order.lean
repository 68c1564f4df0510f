/-!
# Ranked keys

Keys are ordered by a number that determines them (`Ranked`), so "ascending" is a `Pairwise`
statement over `Nat`. `insertAscending` keeps a list of keys ascending, and an ascending list is
determined by its members (`Ascending.ext`).
-/

set_option autoImplicit false

namespace PathForecast

/-- Keys ordered by a number that determines them. -/
class Ranked (κ : Type) where
  rank : κ → Nat
  rank_inj : ∀ {a b : κ}, rank a = rank b → a = b

export Ranked (rank)

theorem rank_eq_iff {κ : Type} [Ranked κ] {a b : κ} : rank a = rank b ↔ a = b :=
  ⟨Ranked.rank_inj, fun h => h ▸ rfl⟩

/-- A list of keys that strictly ascends, so that no key is repeated. -/
def Ascending {κ : Type} [Ranked κ] (keys : List κ) : Prop :=
  keys.Pairwise (fun a b => rank a < rank b)

/-- Puts a key at its place; a key that is there already is not repeated. -/
def insertAscending {κ : Type} [Ranked κ] (k : κ) : List κ → List κ
  | [] => [k]
  | a :: r =>
      if rank k < rank a then k :: a :: r
      else if rank k = rank a then a :: r
      else a :: insertAscending k r

/-- Inserting adds the key and loses none. -/
theorem mem_insertAscending {κ : Type} [Ranked κ] (k x : κ) (keys : List κ) :
    x ∈ insertAscending k keys ↔ x = k ∨ x ∈ keys := by
  induction keys with
  | nil => simp [insertAscending]
  | cons a r ih =>
      by_cases hlt : rank k < rank a
      · simp [insertAscending, hlt]
      · by_cases heq : rank k = rank a
        · have hka : k = a := rank_eq_iff.mp heq
          simp [insertAscending, hka]
        · simp only [insertAscending, hlt, heq, if_false, List.mem_cons, ih]
          exact or_left_comm

theorem Ascending.nodup {κ : Type} [Ranked κ] {keys : List κ} (h : Ascending keys) :
    keys.Nodup :=
  h.imp fun hlt heq => Nat.ne_of_lt hlt (congrArg rank heq)

/-- A list that ascends still does once a key has been put in its place. -/
theorem Ascending.insert {κ : Type} [Ranked κ] (k : κ) {keys : List κ} (h : Ascending keys) :
    Ascending (insertAscending k keys) := by
  induction keys with
  | nil => simp [insertAscending, Ascending]
  | cons a r ih =>
      obtain ⟨ha, hr⟩ := List.pairwise_cons.mp h
      by_cases hlt : rank k < rank a
      · simp only [insertAscending, hlt, if_true]
        refine List.pairwise_cons.mpr ⟨fun x hx => ?_, h⟩
        rcases List.mem_cons.mp hx with rfl | hx
        · exact hlt
        · exact Nat.lt_trans hlt (ha x hx)
      · by_cases heq : rank k = rank a
        · simpa [insertAscending, hlt, heq] using h
        · simp only [insertAscending, hlt, heq, if_false]
          refine List.pairwise_cons.mpr ⟨fun x hx => ?_, ih hr⟩
          rcases (mem_insertAscending k x r).mp hx with rfl | hx
          · omega
          · exact ha x hx

/-- Two ascending lists with the same members are the same list. -/
theorem Ascending.ext {κ : Type} [Ranked κ] :
    ∀ {xs ys : List κ}, Ascending xs → Ascending ys → (∀ k, k ∈ xs ↔ k ∈ ys) → xs = ys
  | [], [], _, _, _ => rfl
  | [], y :: ys, _, _, h => absurd ((h y).mpr List.mem_cons_self) (by simp)
  | x :: xs, [], _, _, h => absurd ((h x).mp List.mem_cons_self) (by simp)
  | x :: xs, y :: ys, hx, hy, h => by
      obtain ⟨hxs, hx'⟩ := List.pairwise_cons.mp hx
      obtain ⟨hys, hy'⟩ := List.pairwise_cons.mp hy
      have hxy : x = y := by
        rcases List.mem_cons.mp ((h x).mp List.mem_cons_self) with h1 | h1
        · exact h1
        · rcases List.mem_cons.mp ((h y).mpr List.mem_cons_self) with h2 | h2
          · exact h2.symm
          · have := hxs y h2
            have := hys x h1
            omega
      subst hxy
      have hrest : ∀ k, k ∈ xs ↔ k ∈ ys := by
        intro k
        constructor
        · intro hk
          rcases List.mem_cons.mp ((h k).mp (List.mem_cons_of_mem _ hk)) with rfl | hk'
          · exact absurd (hxs k hk) (Nat.lt_irrefl _)
          · exact hk'
        · intro hk
          rcases List.mem_cons.mp ((h k).mpr (List.mem_cons_of_mem _ hk)) with rfl | hk'
          · exact absurd (hys k hk) (Nat.lt_irrefl _)
          · exact hk'
      rw [Ascending.ext hx' hy' hrest]

end PathForecast
