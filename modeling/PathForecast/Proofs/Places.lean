import Mathlib.Data.List.Basic
import PathForecast.CommandLine.Run
import PathForecast.FileTree

/-!
# Places and their paths

A place is a list of entries, names that neither stay nor go up. The absolute path of a place leads
back to that place, so a file that is created under a name in a directory stands in that directory.
Main statements: `eq_of_newPlace`, where a new file stands, and
`file?_write`, the only file that a write changes.
-/

set_option autoImplicit false

namespace PathForecast

/-- A name under which a directory has an entry: it neither stays nor goes up, and it is a single
part of a path. -/
structure IsEntry (name : String) : Prop where
  nonempty : name ≠ ""
  not_here : name ≠ "."
  not_above : name ≠ ".."
  no_slash : '/' ∉ name.toList

/-- A place that is reached by going down only. -/
def Place.Proper (p : Place) : Prop := ∀ n ∈ p, IsEntry n

namespace Place.Proper

variable {p : Place} {n : String}

theorem nil : Place.Proper [] := nofun

theorem concat (hp : p.Proper) (hn : IsEntry n) : Place.Proper (p ++ [n]) := by
  intro m hm
  rcases List.mem_append.mp hm with hm | hm
  · exact hp m hm
  · rwa [List.mem_singleton.mp hm]

theorem dropLast (hp : p.Proper) : Place.Proper p.dropLast :=
  fun n hn => hp n (List.dropLast_subset p hn)

end Place.Proper

namespace FileTree

/-! ## Names -/

theorem not_mem_of_mem_splitOn {β : Type} [BEq β] [LawfulBEq β] {a : β} {xs : List β} :
    ∀ l ∈ xs.splitOn a, a ∉ l := by
  induction xs with
  | nil => simp
  | cons x xs ih =>
      rw [List.splitOn_cons_eq_if_modifyHead]
      split
      · exact List.forall_mem_cons.mpr ⟨List.not_mem_nil, ih⟩
      · next hx =>
          have hne : a ≠ x := fun heq => hx (beq_iff_eq.mpr heq.symm)
          cases hsplit : xs.splitOn a with
          | nil => exact absurd hsplit (List.splitOn_ne_nil a xs)
          | cons l ls =>
              rw [hsplit] at ih
              obtain ⟨hl, hls⟩ := List.forall_mem_cons.mp ih
              rw [List.modifyHead_cons]
              refine List.forall_mem_cons.mpr ⟨?_, hls⟩
              exact fun hmem => (List.mem_cons.mp hmem).elim hne hl

theorem no_slash_of_mem_names {path n : String} (h : n ∈ names path) : '/' ∉ n.toList := by
  obtain ⟨l, hl, rfl⟩ := List.mem_map.mp h
  rw [String.toList_ofList]
  exact not_mem_of_mem_splitOn l hl

theorem absolutePath_concat (p : Place) (n : String) :
    absolutePath (p ++ [n]) = (if p = [] then "/" else absolutePath p ++ "/") ++ n := by
  split
  · next hp =>
      rw [hp, absolutePath]
      rfl
  · next hp =>
      rw [absolutePath, String.intercalate_append_of_ne_nil hp (List.cons_ne_nil _ _),
        String.intercalate_singleton]
      simp [absolutePath, String.append_assoc]

/-- The names of a path are those of the place that it was made for. -/
theorem names_absolutePath {p : Place} (hp : p.Proper) (hne : p ≠ []) :
    names (absolutePath p) = "" :: p := by
  have hlist : (absolutePath p).toList = ['/'].intercalate ([] :: p.map String.toList) := by
    cases p with
    | nil => exact absurd rfl hne
    | cons n p =>
        rw [absolutePath, String.toList_append, String.toList_intercalate]
        rfl
  have hslash : ∀ l ∈ ([] : List Char) :: p.map String.toList, '/' ∉ l := by
    refine List.forall_mem_cons.mpr ⟨List.not_mem_nil, fun l hl => ?_⟩
    obtain ⟨n, hn, rfl⟩ := List.mem_map.mp hl
    exact (hp n hn).no_slash
  rw [names, hlist, List.splitOn_intercalate '/' hslash (List.cons_ne_nil _ _), List.map_cons,
    List.map_map]
  have hself : (String.ofList ∘ String.toList) = id := by
    funext n
    exact String.ofList_toList
  rw [hself, List.map_id]

theorem isAbsolute_absolutePath (p : Place) : isAbsolute (absolutePath p) = true := by
  rw [isAbsolute, absolutePath, String.toList_append]
  rfl

/-- A name in the directory of a place has the path of a place. -/
theorem pathIn_absolutePath {p : Place} (hp : p.Proper) (name : String) :
    Host.pathIn (absolutePath p) name = absolutePath (p ++ [name]) := by
  rw [absolutePath_concat]
  rcases List.eq_nil_or_concat p with rfl | ⟨front, n, rfl⟩
  · rfl
  · have hn := hp n (by simp)
    have hlast : (absolutePath (front ++ [n])).toList.getLast? ≠ some '/' := by
      have hchars : n.toList ≠ [] := fun h => hn.nonempty (String.toList_eq_nil_iff.mp h)
      rw [absolutePath_concat, String.toList_append, List.getLast?_append_of_ne_nil _ hchars]
      exact fun h => hn.no_slash (List.mem_of_getLast? h)
    rw [Host.pathIn, List.concat_eq_append, if_neg hlast, if_neg (by simp)]

/-! ## Walking -/

theorem exists_of_bind_eq_ok {β γ : Type} {x : Except String β} {f : β → Except String γ} {r : γ}
    (h : x >>= f = .ok r) : ∃ a, x = .ok a ∧ f a = .ok r := by
  cases x with
  | error reason => cases h
  | ok a => exact ⟨a, rfl, h⟩

variable {t t' : FileTree} {p q : Place} {path : String}

/-- Going along entries goes down to where they name. -/
theorem walk_of_proper {ns : List String} (hns : Place.Proper ns) :
    ∀ {p : Place}, t.walk p ns = .ok q → q = p ++ ns := by
  induction ns with
  | nil =>
      intro p h
      rw [walk] at h
      rw [List.append_nil]
      exact (Except.ok.inj h).symm
  | cons n ns ih =>
      intro p h
      obtain ⟨hn, hns⟩ := List.forall_mem_cons.mp hns
      rw [walk] at h
      split at h
      · cases h
      · rw [if_neg (not_or.mpr ⟨hn.nonempty, hn.not_here⟩), if_neg hn.not_above] at h
        split at h
        · cases h
        · dsimp only at h
          split at h
          · rw [ih hns h, List.append_assoc, List.singleton_append]
          · cases h

/-- Wherever names lead, it is a place. -/
theorem proper_of_walk {ns : List String} (hns : ∀ n ∈ ns, '/' ∉ n.toList) :
    ∀ {p : Place}, p.Proper → t.walk p ns = .ok q → q.Proper := by
  induction ns with
  | nil =>
      intro p hp h
      rw [walk] at h
      rwa [← Except.ok.inj h]
  | cons n ns ih =>
      intro p hp h
      obtain ⟨hn, hns⟩ := List.forall_mem_cons.mp hns
      rw [walk] at h
      split at h
      · cases h
      · split at h
        · exact ih hns hp h
        · next hstays =>
            obtain ⟨hnonempty, hhere⟩ := not_or.mp hstays
            split at h
            · exact ih hns hp.dropLast h
            · next habove =>
                split at h
                · cases h
                · dsimp only at h
                  split at h
                  · exact ih hns (hp.concat ⟨hnonempty, hhere, habove, hn⟩) h
                  · cases h

theorem proper_of_locate (hhome : t.home.Proper) (h : t.locate path = .ok p) : p.Proper := by
  rw [locate] at h
  split at h
  · cases h
  · split at h
    · cases h
    · refine proper_of_walk (fun n => no_slash_of_mem_names) ?_ h
      split
      · exact .nil
      · exact hhome

/-- A new entry has the last name of its path, in the directory that the other names lead to. -/
theorem exists_parent_of_newPlace (h : t.newPlace path = .ok q) :
    ∃ parent n,
      t.walk (if isAbsolute path then [] else t.home) (names path).dropLast = .ok parent ∧
        (names path).getLast? = some n ∧ q = parent ++ [n] := by
  rw [newPlace] at h
  split at h
  · cases h
  · obtain ⟨parent, hwalk, h⟩ := exists_of_bind_eq_ok h
    split at h
    · cases h
    · next n hlast =>
        simp only [bind, Except.bind, pure, Except.pure] at h
        split at h
        · cases h
        · split at h
          · cases h
          · split at h
            · cases h
            · exact ⟨parent, n, hwalk, hlast, (Except.ok.inj h).symm⟩

/-- A new entry of a directory stands in that directory. -/
theorem eq_of_newPlace {n : String} (hp : p.Proper) (hn : IsEntry n)
    (h : t.newPlace (absolutePath (p ++ [n])) = .ok q) : q = p ++ [n] := by
  have hnames : names (absolutePath (p ++ [n])) = "" :: p ++ [n] :=
    names_absolutePath (hp.concat hn) (by simp)
  obtain ⟨parent, m, hwalk, hlast, rfl⟩ := exists_parent_of_newPlace h
  rw [hnames, List.dropLast_concat, isAbsolute_absolutePath, if_pos rfl] at hwalk
  rw [hnames, List.getLast?_concat, Option.some.injEq] at hlast
  have hstart : t.walk [] ("" :: p) = t.walk [] p := by
    rw [walk]
    simp [isDirectory]
  rw [hstart] at hwalk
  rw [walk_of_proper hp hwalk, hlast, List.nil_append]

/-! ## What changes leave alone -/

theorem lookup_filter_ne (hne : q ≠ p) (files : List (Place × Bytes)) :
    (files.filter fun f => f.1 != p).lookup q = files.lookup q := by
  induction files with
  | nil => rfl
  | cons f files ih =>
      by_cases hf : f.1 = p
      · have hq : (q == f.1) = false := beq_eq_false_iff_ne.mpr (hf ▸ hne)
        rw [List.filter_cons_of_neg (by simp [hf]), ih, List.lookup_cons, hq]
      · rw [List.filter_cons_of_pos (by simpa using hf), List.lookup_cons, List.lookup_cons, ih]

/-- A file that is written stands where its path leads, and no other file changes. -/
theorem file?_write {n : String} {content : Bytes} (hp : p.Proper) (hn : IsEntry n)
    (h : t.write (absolutePath (p ++ [n])) content = .ok t') :
    ∀ q, t'.file? q = if q = p ++ [n] then some content else t.file? q := by
  obtain ⟨r, hplace, h⟩ := exists_of_bind_eq_ok h
  obtain rfl := eq_of_newPlace hp hn hplace
  split at h
  · cases h
  · cases h
    intro q
    show List.lookup q ((p ++ [n], content) :: _) = _
    rw [List.lookup_cons]
    by_cases hq : q = p ++ [n]
    · rw [if_pos hq, beq_iff_eq.mpr hq]
    · rw [if_neg hq, beq_eq_false_iff_ne.mpr hq]
      exact lookup_filter_ne hq t.files

/-- Creating a directory changes neither a file nor the home directory. -/
theorem createDirectory_keeps (h : t.createDirectory path = .ok t') :
    t'.files = t.files ∧ t'.home = t.home := by
  rw [createDirectory] at h
  split at h
  · split at h
    · cases h
      exact ⟨rfl, rfl⟩
    · cases h
  · obtain ⟨r, -, h⟩ := exists_of_bind_eq_ok h
    split at h
    · cases h
    · cases h
      exact ⟨rfl, rfl⟩

theorem createDirectories_keeps (h : t.createDirectories path = .ok t') :
    t'.files = t.files ∧ t'.home = t.home := by
  rw [createDirectories] at h
  generalize lineage path = paths at h
  induction paths generalizing t with
  | nil =>
      cases h
      exact ⟨rfl, rfl⟩
  | cons path paths ih =>
      rw [List.foldlM_cons] at h
      obtain ⟨k, hfirst, h⟩ := exists_of_bind_eq_ok h
      obtain ⟨hfiles, hhome⟩ := ih h
      obtain ⟨hfiles', hhome'⟩ := createDirectory_keeps hfirst
      exact ⟨hfiles.trans hfiles', hhome.trans hhome'⟩

end FileTree

end PathForecast
