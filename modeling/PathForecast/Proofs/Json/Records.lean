import Mathlib
import PathForecast.Proofs.Json.Parsing
import PathForecast.Proofs.Sessions

/-!
# Catalogs and workloads are read back

Every record is written as an object of its fields, and reading it back looks for each field by its
name. A field that is left out reads as one that was not recorded. Main statement: `load_written`, a
file with the text of a catalog or of a workload is loaded as that catalog or workload.
-/

set_option autoImplicit false

namespace PathForecast

open JsonValue

namespace JsonValue

/-! ## Scalars and lists -/

theorem below?_ofNat {n bound : Nat} (h : n < bound) : (ofNat n).below? bound = some n := by
  show (Numeral.natural? (digitBytes n)).filter _ = some n
  rw [natural?_digitBytes]
  exact Option.filter_eq_some_iff.mpr ⟨rfl, decide_eq_true h⟩

theorem uint32?_ofNat (n : UInt32) : (ofNat n.toNat).uint32? = some n := by
  rw [uint32?, below?_ofNat n.toNat_lt, Option.map_some, Nat.toUInt32, UInt32.ofNat_toNat]

theorem uint64?_ofNat (n : UInt64) : (ofNat n.toNat).uint64? = some n := by
  rw [uint64?, below?_ofNat n.toNat_lt, Option.map_some, Nat.toUInt64, UInt64.ofNat_toNat]

theorem text?_ofText (s : String) : (ofText s).text? = some s := unescape_escape s

theorem mapM_map_eq_some {β γ : Type} {read : γ → Option β} {write : β → γ} (l : List β)
    (h : ∀ b ∈ l, read (write b) = some b) : (l.map write).mapM read = some l := by
  induction l with
  | nil => rfl
  | cons b l ih =>
      obtain ⟨hb, hl⟩ := List.forall_mem_cons.mp h
      rw [List.map_cons, List.mapM_cons, hb, ih hl]
      rfl

theorem list?_map {β : Type} {read : JsonValue → Option β} {write : β → JsonValue} (l : List β)
    (h : ∀ b, read (write b) = some b) : list? read (.array (l.map write)) = some l :=
  mapM_map_eq_some l fun b _ => h b

/-! ## Fields -/

theorem record?_ofFields (names : List String) (fields : List (String × JsonValue)) :
    (ofFields fields).record? names = names.mapM (field? fields) := by
  have hnamed : named? (fields.map fun f => (escape f.1, f.2)) = some fields :=
    mapM_map_eq_some fields fun f _ => by rw [unescape_escape, Option.map_some]
  rw [ofFields, record?, hnamed]
  rfl

end JsonValue

/-! ## Records -/

theorem PartitionSet.ofJson?_toJson (s : PartitionSet) : ofJson? s.toJson = some s := by
  have hids : list? (fun p => (uint32? p).map PartitionId.mk) s.toJson = some s.ids :=
    list?_map s.ids fun p => by rw [uint32?_ofNat, Option.map_some]
  rw [ofJson?, hids, Option.map_some]
  exact congrArg some (PartitionSet.ext fun p => PartitionSet.mem_ofList p s.ids)

/-- A field that is there and not `null` reads as recorded. -/
theorem optional?_of_ne_null {β : Type} {read : JsonValue → Option β} {v : JsonValue} {x : β}
    (hv : v ≠ .null) (h : read v = some x) : optional? read (some v) = some (some x) := by
  cases v with
  | null => exact absurd rfl hv
  | _ => simp [optional?, defaulted?, nullable?, h]

theorem optional?_none {β : Type} (read : JsonValue → Option β) :
    optional? read none = some none := rfl

theorem QueryTrace.ofJson?_toJson (q : QueryTrace) : ofJson? q.toJson = some q := by
  obtain ⟨statement, start, stop, partitions⟩ := q
  rw [QueryTrace.ofJson?, QueryTrace.toJson, record?_ofFields]
  cases partitions with
  | none => simp [field?, recordedField, required?, uint32?_ofNat, uint64?_ofNat, optional?_none]
  | some s =>
      have hs : optional? PartitionSet.ofJson? (some s.toJson) = some (some s) :=
        optional?_of_ne_null nofun s.ofJson?_toJson
      simp [field?, recordedField, required?, uint32?_ofNat, uint64?_ofNat, hs]

theorem TransactionTrace.ofJson?_toJson (t : TransactionTrace) : ofJson? t.toJson = some t := by
  obtain ⟨txn, procedure, start, stop, aborted, base, queries⟩ := t
  have hqueries : list? QueryTrace.ofJson? (.array (queries.map QueryTrace.toJson)) =
      some queries := list?_map queries QueryTrace.ofJson?_toJson
  rw [TransactionTrace.ofJson?, TransactionTrace.toJson, record?_ofFields]
  cases base with
  | none =>
      simp [field?, recordedField, required?, uint32?_ofNat, uint64?_ofNat, optional?_none,
        defaulted?, bool?, hqueries]
  | some p =>
      have hp : optional? uint32? (some (ofNat p.number.toNat)) = some (some p.number) :=
        optional?_of_ne_null nofun (uint32?_ofNat p.number)
      simp [field?, recordedField, required?, uint32?_ofNat, uint64?_ofNat, defaulted?, bool?, hp,
        hqueries]

theorem Statement.ofJson?_toJson (s : Statement) : ofJson? s.toJson = some s := by
  rw [Statement.ofJson?, Statement.toJson, record?_ofFields]
  simp [field?, required?, uint32?_ofNat, text?_ofText]

theorem Procedure.ofJson?_toJson (p : Procedure) : ofJson? p.toJson = some p := by
  have hstatements : list? Statement.ofJson? (.array (p.statements.map Statement.toJson)) =
      some p.statements := list?_map p.statements Statement.ofJson?_toJson
  rw [Procedure.ofJson?, Procedure.toJson, record?_ofFields]
  simp [field?, required?, uint32?_ofNat, text?_ofText, hstatements]

theorem Catalog.ofJson?_toJson (c : Catalog) : ofJson? c.toJson = some c := by
  have hprocedures : list? Procedure.ofJson? (.array (c.procedures.map Procedure.toJson)) =
      some c.procedures := list?_map c.procedures Procedure.ofJson?_toJson
  rw [Catalog.ofJson?, Catalog.toJson, record?_ofFields]
  simp [field?, required?, hprocedures]

/-! ## Written records -/

theorem written_map {β : Type} {write : β → JsonValue} (l : List β)
    (h : ∀ b, Written (write b)) : Written (.array (l.map write)) := by
  refine .array fun v hv => ?_
  obtain ⟨b, -, rfl⟩ := List.mem_map.mp hv
  exact h b

theorem written_recordedField {β : Type} (name : String) {write : β → JsonValue}
    (h : ∀ b, Written (write b)) (x : Option β) :
    ∀ f ∈ recordedField name write x, Written f.2 := by
  cases x with
  | none => nofun
  | some x =>
      intro f hf
      rw [List.mem_singleton.mp hf]
      exact h x

theorem PartitionSet.written_toJson (s : PartitionSet) : Written s.toJson :=
  written_map s.ids fun _ => .nat _

theorem QueryTrace.written_toJson (q : QueryTrace) : Written q.toJson := by
  refine .object (List.forall_mem_append.mpr ⟨?_, ?_⟩)
  · simp only [List.forall_mem_cons]
    exact ⟨.nat _, .nat _, .nat _, nofun⟩
  · exact written_recordedField _ PartitionSet.written_toJson _

theorem TransactionTrace.written_toJson (t : TransactionTrace) : Written t.toJson := by
  refine .object (List.forall_mem_append.mpr ⟨List.forall_mem_append.mpr ⟨?_, ?_⟩, ?_⟩)
  · simp only [List.forall_mem_cons]
    exact ⟨.nat _, .nat _, .nat _, .nat _, .bool _, nofun⟩
  · exact written_recordedField _ (fun _ => .nat _) _
  · exact List.forall_mem_singleton.mpr (written_map t.queries QueryTrace.written_toJson)

theorem Statement.written_toJson (s : Statement) : Written s.toJson := by
  refine .object ?_
  simp only [List.forall_mem_cons]
  exact ⟨.nat _, .text _, nofun⟩

theorem Procedure.written_toJson (p : Procedure) : Written p.toJson := by
  refine .object ?_
  simp only [List.forall_mem_cons]
  exact ⟨.nat _, .text _, written_map p.statements Statement.written_toJson, nofun⟩

theorem Catalog.written_toJson (c : Catalog) : Written c.toJson :=
  .object (List.forall_mem_singleton.mpr (written_map c.procedures Procedure.written_toJson))

/-! ## Files -/

theorem FileTree.info_of_read {t : FileTree} {path : String} {content : Bytes}
    (h : t.read path = .ok content) : t.info path = .ok (.regular content.length) := by
  unfold FileTree.read at h
  unfold FileTree.info
  cases hp : t.locate path with
  | error reason =>
      rw [hp] at h
      cases h
  | ok p =>
      rw [hp] at h
      cases hfile : t.file? p with
      | none => simp [bind, Except.bind, hfile, throw, throwThe, MonadExceptOf.throw] at h
      | some content' =>
          simp [bind, Except.bind, pure, Except.pure, hfile] at h ⊢
          rw [h]

namespace Session

variable {s : Session}

variable {path : String} {limit : UInt64} {content : Bytes}
  (h : s.tree.read path = .ok content) (hsize : content.length ≤ limit.toNat)

include h hsize

/-- A file that is not too large is read, and nothing changes. -/
theorem run_readBounded : (host.readBounded path limit).run.run s = (.ok content, s) := by
  have hinfo : (Host.demand .read path (host.info path)).run.run s =
      (.ok (.regular content.length), s) := by
    refine (run_demand_ask .read path (·.info path) s).trans ?_
    rw [FileTree.info_of_read h]
    rfl
  have hread : (Host.demand .read path (host.read path)).run.run s = (.ok content, s) := by
    refine (run_demand_ask .read path (·.read path) s).trans ?_
    rw [h]
    rfl
  rw [Host.readBounded, run_bind, hinfo]
  dsimp only
  rw [if_neg (Nat.not_lt.mpr hsize)]
  exact hread

theorem run_loadCatalog {c : Catalog} (hparse : Catalog.parse? content = some c) :
    (host.loadCatalog path limit).run.run s = (.ok c, s) := by
  rw [Host.loadCatalog, run_bind, run_readBounded h hsize]
  dsimp only
  rw [hparse]
  rfl

theorem run_loadWorkload {ts : List TransactionTrace} (hparse : parseWorkload? content = some ts) :
    (host.loadWorkload path limit).run.run s = (.ok ts, s) := by
  rw [Host.loadWorkload, run_bind, run_readBounded h hsize]
  dsimp only
  rw [hparse]
  rfl

end Session

/-- A file of at most `limit` bytes that holds the text of a catalog is loaded as that catalog, and
one that holds the text of a workload as that workload, whether the text is written in one line or
in many. -/
theorem load_written (s : Session) (path : String) (limit : UInt64) {write : JsonValue → Bytes}
    (hwrite : write = compact ∨ write = pretty) :
    (∀ c : Catalog, s.tree.read path = .ok (write c.toJson) →
      (write c.toJson).length ≤ limit.toNat →
      (Session.host.loadCatalog path limit).run.run s = (.ok c, s)) ∧
    ∀ ts : List TransactionTrace, s.tree.read path = .ok (write (workloadToJson ts)) →
      (write (workloadToJson ts)).length ≤ limit.toNat →
      (Session.host.loadWorkload path limit).run.run s = (.ok ts, s) := by
  have hparse : ∀ v, Written v → JsonValue.parse? (write v) = some v := by
    intro v hv
    rcases hwrite with rfl | rfl
    · exact parse?_compact hv
    · exact parse?_pretty hv
  refine ⟨fun c hread hsize => ?_, fun ts hread hsize => ?_⟩
  · refine Session.run_loadCatalog hread hsize ?_
    rw [Catalog.parse?, hparse _ c.written_toJson, Option.bind_some, c.ofJson?_toJson]
  · refine Session.run_loadWorkload hread hsize ?_
    have hwritten : Written (workloadToJson ts) := written_map ts TransactionTrace.written_toJson
    rw [parseWorkload?, hparse _ hwritten, Option.bind_some]
    exact list?_map ts TransactionTrace.ofJson?_toJson

def shelf (catalog workload : Bytes) : FileTree where
  home := ["home"]
  directories := [["home"]]
  files := [(["home", "c"], catalog), (["home", "w"], workload)]

/-- A name with a quotation mark, a backslash and control characters, one with no character at all,
and a procedure without statements. -/
def quotedCatalog : Catalog where
  procedures :=
    [{ id := ⟨4294967295⟩, name := "π \"q\"\\\n\x01",
       statements := [{ id := ⟨0⟩, name := "" }, { id := ⟨7⟩, name := "a/b" }] },
     { id := ⟨0⟩, name := "", statements := [] }]

/-- Partitions that are not recorded, none at all, and two, and a trace with no base partition and
no query. -/
def sparseWorkload : List TransactionTrace :=
  [{ txn := ⟨18446744073709551615⟩, procedure := ⟨4294967295⟩, start := 0, stop := 9,
     aborted := true, basePartition := some ⟨4294967295⟩,
     queries :=
       [{ statement := ⟨0⟩, start := 0, stop := 1, partitions := none },
        { statement := ⟨7⟩, start := 1, stop := 2, partitions := some ∅ },
        { statement := ⟨0⟩, start := 2, stop := 9,
          partitions := some (.ofList [⟨4294967295⟩, ⟨3⟩]) }] },
   { txn := ⟨0⟩, procedure := ⟨0⟩, start := 0, stop := 0, aborted := false, basePartition := none,
     queries := [] }]

def archive : Session where
  tree := shelf (pretty quotedCatalog.toJson) (compact (workloadToJson sparseWorkload))
  printed := []

theorem read_shelf (catalog workload : Bytes) :
    (shelf catalog workload).read "c" = .ok catalog ∧
      (shelf catalog workload).read "w" = .ok workload := by
  constructor <;> cbv

theorem load_written_archive :
    (Session.host.loadCatalog "c" 4096).run.run archive = (.ok quotedCatalog, archive) ∧
      (Session.host.loadWorkload "w" 4096).run.run archive = (.ok sparseWorkload, archive) := by
  have hshelf := read_shelf (pretty quotedCatalog.toJson) (compact (workloadToJson sparseWorkload))
  exact ⟨(load_written archive "c" 4096 (.inr rfl)).1 _ hshelf.1 (by decide +kernel),
    (load_written archive "w" 4096 (.inl rfl)).2 _ hshelf.2 (by decide +kernel)⟩

end PathForecast
