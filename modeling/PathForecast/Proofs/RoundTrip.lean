import PathForecast.Proofs.Recovery
import PathForecast.Snapshot.Binary

/-!
# Binary snapshots come back

Every part of a binary snapshot is written by a lossless codec: numbers and handles, floats by their
bits, sets and maps by their ascending entries, and records by their fields in order. Main
statements: `Codec.lossless_snapshot`, and `Snapshot.ofBinary_toBinary`, a file of at most
`maxBinarySize` bytes is read back as the snapshot that was written, and no file that is cut short
is read at all.
-/

set_option autoImplicit false

namespace PathForecast

/-! ## Sets and maps from their entries -/

theorem PartitionSet.ofList_ids (s : PartitionSet) : ofList s.ids = s :=
  PartitionSet.ext fun p => mem_ofList p s.ids

/-- An entry whose key is above all others goes to the end. -/
theorem insertEntry_of_forall_lt {κ ν : Type} [Ranked κ] (k : κ) (v : ν) {es : List (κ × ν)}
    (h : ∀ e ∈ es, rank e.1 < rank k) : insertEntry k v es = es ++ [(k, v)] := by
  induction es with
  | nil => rfl
  | cons e es ih =>
      obtain ⟨he, hes⟩ := List.forall_mem_cons.mp h
      rw [insertEntry, if_neg (Nat.lt_asymm he), if_neg (Nat.ne_of_gt he), ih hes,
        List.cons_append]

theorem Table.ext {κ ν : Type} [Ranked κ] {t u : Table κ ν} (h : t.entries = u.entries) :
    t = u := by
  cases t
  cases u
  cases h
  rfl

theorem Table.entries_foldl_insert {κ ν : Type} [Ranked κ] (es : List (κ × ν)) :
    ∀ t : Table κ ν, Ascending ((t.entries ++ es).map (·.1)) →
      (es.foldl (fun t e => t.insert e.1 e.2) t).entries = t.entries ++ es := by
  induction es with
  | nil => exact fun t _ => (List.append_nil _).symm
  | cons e es ih =>
      intro t h
      have hlast : ∀ d ∈ t.entries, rank d.1 < rank e.1 := by
        intro d hd
        rw [List.map_append] at h
        exact (List.pairwise_append.mp h).2.2 _ (List.mem_map_of_mem hd) _ List.mem_cons_self
      have hinsert : (t.insert e.1 e.2).entries = t.entries ++ [e] :=
        insertEntry_of_forall_lt e.1 e.2 hlast
      rw [List.foldl_cons, ih, hinsert, List.append_assoc, List.singleton_append]
      rwa [hinsert, List.append_assoc, List.singleton_append]

theorem Table.ofList_entries {κ ν : Type} [Ranked κ] (t : Table κ ν) : ofList t.entries = t :=
  Table.ext (entries_foldl_insert t.entries empty t.ascending)

/-! ## The codecs of a snapshot -/

namespace Codec

theorem lossless_procedureId : procedureId.Lossless := lossless_uint32.convert fun _ => rfl

theorem lossless_statementId : statementId.Lossless := lossless_uint32.convert fun _ => rfl

theorem lossless_partitionId : partitionId.Lossless := lossless_uint32.convert fun _ => rfl

theorem lossless_vertexId : vertexId.Lossless := lossless_uint32.convert fun _ => rfl

theorem lossless_edgeId : edgeId.Lossless := lossless_uint32.convert fun _ => rfl

theorem lossless_elementId : elementId.Lossless := lossless_uint64.convert fun _ => rfl

theorem lossless_binary64 : binary64.Lossless := lossless_word.convert fun _ => rfl

theorem lossless_partitionSet : partitionSet.Lossless :=
  lossless_partitionId.list.convert PartitionSet.ofList_ids

def kindOf (n : Nat) (rest : Bytes) : Except DecodeFault (VertexKind × Bytes) :=
  match n with
  | 0 => .ok (.start, rest)
  | 1 => .ok (.query, rest)
  | 2 => .ok (.commit, rest)
  | 3 => .ok (.abort, rest)
  | _ => .error .unknownAlternative

theorem lossless_vertexKind : vertexKind.Lossless := by
  intro k _
  have hindex : varint32.Recovers (kindIndex k) := recovers_varint32 (by cases k <;> decide)
  have hkind : Reads (kindOf (kindIndex k)) [] k := .of_nil fun _ => by cases k <;> rfl
  have hreads := hindex.reads.bind kindOf hkind
  rw [List.append_nil] at hreads
  exact ⟨hindex.nonempty, hreads⟩

theorem lossless_forecast : forecast.Lossless := by
  refine Lossless.convert (lossless_binary64.both <| lossless_binary64.both <|
    lossless_binary64.both ?_) fun _ => rfl
  exact (lossless_partitionId.both lossless_binary64).list.convert Table.ofList_entries

theorem lossless_snapshotVertex : snapshotVertex.Lossless :=
  Lossless.convert (lossless_vertexId.both <| lossless_elementId.both <| lossless_vertexKind.both <|
    lossless_statementId.option.both <| lossless_uint32.both <| lossless_partitionSet.both <|
    lossless_partitionSet.both <| lossless_uint64.both <| lossless_uint64.both <|
    lossless_binary64.option.both lossless_forecast) fun _ => rfl

theorem lossless_snapshotEdge : snapshotEdge.Lossless :=
  Lossless.convert (lossless_edgeId.both <| lossless_elementId.both <| lossless_vertexId.both <|
    lossless_vertexId.both <| lossless_uint64.both <| lossless_uint64.both lossless_binary64)
    fun _ => rfl

theorem lossless_snapshot : snapshot.Lossless :=
  Lossless.convert (lossless_procedureId.both <| lossless_text.both <| lossless_uint64.both <|
    lossless_uint64.both <| lossless_snapshotVertex.list.both lossless_snapshotEdge.list)
    fun _ => rfl

end Codec

/-! ## The file -/

theorem Header.read_of_length_lt {b : Bytes} (h : b.length < Header.standard.bytes.length) :
    Header.read b = .error .headerTooShort := by
  match b, h with
  | [], _ => rfl
  | [_], _ => rfl
  | [_, _], _ => rfl
  | [_, _, _], _ => rfl
  | [_, _, _, _], _ => rfl

namespace Snapshot

/-- After a standard header the payload decides. -/
theorem ofBinary_header {payload : Bytes}
    (h : (Header.standard.bytes ++ payload).length ≤ maxBinarySize) :
    ofBinary (Header.standard.bytes ++ payload) =
      match Codec.snapshot.read payload with
      | .ok (s, _) => .ok s
      | .error fault => .error (.undecodable fault) := by
  rw [ofBinary, if_neg (Nat.not_lt.mpr h)]
  rfl

/-- A snapshot is read back from its bytes, floats by their bits, and nothing is read from less than
all of them. -/
theorem ofBinary_toBinary (s : Snapshot Binary64) (h : s.toBinary.length ≤ maxBinarySize) :
    ofBinary s.toBinary = .ok s ∧
      ∀ front, front <+: s.toBinary → front ≠ s.toBinary →
        ∃ fault, ofBinary front = .error fault := by
  have hlength : Header.standard.bytes.length + (Codec.snapshot.write s).length ≤
      maxBinarySize := by
    rw [← List.length_append]
    exact h
  have hsize : maxBinarySize < UInt64.size := by decide
  have hreads := (Codec.lossless_snapshot s (by omega)).reads
  refine ⟨?_, fun front hprefix hne => ?_⟩
  · have hwhole := hreads.whole []
    rw [List.append_nil] at hwhole
    rw [toBinary, ofBinary_header h, hwhole]
  · obtain ⟨back, hback⟩ := hprefix
    have hcut : back ≠ [] := by
      rintro rfl
      exact hne (by rw [← hback, List.append_nil])
    have hfront : front.length ≤ maxBinarySize := by
      rw [← hback, List.length_append] at h
      omega
    rcases Codec.append_cut hback with ⟨mid, hmid, hheader⟩ | ⟨more, rfl, hpayload⟩
    · have hshort : front.length < Header.standard.bytes.length := by
        rw [← hheader, List.length_append]
        exact Nat.lt_add_of_pos_right (List.length_pos_iff.mpr hmid)
      rw [ofBinary, if_neg (Nat.not_lt.mpr hfront), Header.read_of_length_lt hshort]
      exact ⟨.headerTooShort, rfl⟩
    · obtain ⟨fault, hfault⟩ := hreads.cut more back hpayload hcut
      rw [ofBinary_header hfront, hfault]
      exact ⟨.undecodable fault, rfl⟩

/-- A snapshot of one vertex and one edge, out of order, with a NaN, a negative zero, a set and a
map. -/
def sample : Snapshot Binary64 where
  procedure := ⟨4294967295⟩
  procedureName := "pay é"
  transactionCount := 18446744073709551615
  recomputeCount := 128
  vertices :=
    [{ id := ⟨3⟩, element := ⟨300⟩, kind := .query, statement := some ⟨10⟩, index := 1,
       partitions := .ofList [⟨7⟩, ⟨0⟩], past := ∅, totalHits := 1, windowHits := 0,
       averageRemaining := some ⟨0x7ff8000000000001⟩,
       forecast := ⟨⟨0x8000000000000000⟩, ⟨0x3ff0000000000000⟩, ⟨0⟩,
         .ofList [(⟨7⟩, ⟨0x7ff0000000000000⟩), (⟨0⟩, ⟨1⟩)]⟩ }]
  edges :=
    [{ id := ⟨1⟩, element := ⟨4⟩, source := ⟨3⟩, dest := ⟨9⟩, totalHits := 1, windowHits := 0,
       probability := ⟨0xfff8000000000000⟩ }]

theorem ofBinary_toBinary_sample :
    sample.toBinary.length = 110 ∧ ofBinary sample.toBinary = .ok sample ∧
      ∀ n < 110, ∃ fault, ofBinary (sample.toBinary.take n) = .error fault := by
  have hlength : sample.toBinary.length = 110 := by decide +kernel
  obtain ⟨hwhole, hcut⟩ := ofBinary_toBinary sample (by rw [hlength]; decide)
  refine ⟨hlength, hwhole, fun n hn => hcut _ (List.take_prefix n _) fun heq => ?_⟩
  have htake := congrArg List.length heq
  rw [List.length_take, hlength] at htake
  omega

end Snapshot

end PathForecast
