import PathForecast.Proofs.RoundTrip

/-!
# What is read is written again in no more bytes

Bytes that a codec reads need not be the bytes that it writes: numbers may have superfluous digits,
sets and maps may come unsorted or with repetitions, and bytes may follow the value. What the codec
then writes takes no more bytes than were read (`Codec.Frugal`). A number read has at least as many
digits as it needs, sets and maps keep each of their items at most once, and the rest is a matter of
adding up. Main statements: `Codec.frugal_snapshot`, and `Snapshot.ofBinary_rewrite`, a snapshot
that was read from a file is written to a file of at most the same size and read back from it.
-/

set_option autoImplicit false

namespace PathForecast

/-! ## Sets and maps keep their items at most once -/

theorem PartitionSet.ids_ofList_subperm (ps : List PartitionId) :
    (ofList ps).ids.Subperm ps :=
  List.subperm_of_subset (ofList ps).ascending.nodup fun p hp => (mem_ofList p ps).mp hp

theorem Table.mem_foldl_insert {κ ν : Type} [Ranked κ] {e : κ × ν} (es : List (κ × ν)) :
    ∀ t : Table κ ν, e ∈ (es.foldl (fun t e => t.insert e.1 e.2) t).entries →
      e ∈ t.entries ∨ e ∈ es := by
  induction es with
  | nil => exact fun t h => .inl h
  | cons d es ih =>
      intro t h
      rcases ih (t.insert d.1 d.2) h with h | h
      · rcases Table.mem_insertEntry h with rfl | h
        · exact .inr List.mem_cons_self
        · exact .inl h
      · exact .inr (List.mem_cons_of_mem d h)

theorem Table.entries_ofList_subperm {κ ν : Type} [Ranked κ] (es : List (κ × ν)) :
    (ofList es).entries.Subperm es :=
  List.subperm_of_subset (List.Nodup.of_map _ (ofList es).ascending.nodup) fun _ he =>
    (mem_foldl_insert es empty he).resolve_left List.not_mem_nil

namespace Codec

variable {β γ : Type}

/-! ## Readers that take no less than is written -/

/-- A reader takes at least `size x` bytes for a value `x`. -/
def Takes (read : Bytes → Except DecodeFault (β × Bytes)) (size : β → Nat) : Prop :=
  ∀ ⦃b x rest⦄, read b = .ok (x, rest) → size x + rest.length ≤ b.length

/-- Whatever the codec reads, it writes again in no more bytes than it took. -/
def Frugal (c : Codec β) : Prop := Takes c.read fun x => (c.write x).length

theorem Frugal.length_le {c : Codec β} (hc : c.Frugal) {b rest : Bytes} {x : β}
    (h : c.read b = .ok (x, rest)) : (c.write x).length + rest.length ≤ b.length :=
  hc h

section Readers

variable {read : Bytes → Except DecodeFault (β × Bytes)} {b rest : Bytes} {y : γ}

theorem andThen_eq_ok {f : β → Bytes → Except DecodeFault (γ × Bytes)}
    (h : andThen read f b = .ok (y, rest)) :
    ∃ x mid, read b = .ok (x, mid) ∧ f x mid = .ok (y, rest) := by
  rw [andThen] at h
  cases hread : read b with
  | error fault =>
      rw [hread] at h
      cases h
  | ok p =>
      rw [hread] at h
      exact ⟨p.1, p.2, rfl, h⟩

theorem andThen_ok_eq_ok {f : β → γ}
    (h : andThen read (fun x rest => .ok (f x, rest)) b = .ok (y, rest)) :
    ∃ x, read b = .ok (x, rest) ∧ f x = y := by
  obtain ⟨x, mid, hx, hy⟩ := andThen_eq_ok h
  obtain ⟨hvalue, rfl⟩ := Prod.mk.inj (Except.ok.inj hy)
  exact ⟨x, hx, hvalue⟩

end Readers

theorem Frugal.convert {c : Codec β} (hc : c.Frugal) {toCode : γ → β} {ofCode : β → γ}
    (h : ∀ x, (c.write (toCode (ofCode x))).length ≤ (c.write x).length) :
    (c.convert toCode ofCode).Frugal := by
  intro b y rest hread
  obtain ⟨x, hx, rfl⟩ := andThen_ok_eq_ok hread
  exact Nat.le_trans (Nat.add_le_add_right (h x) _) (hc hx)

/-- A value that keeps all of its code is written as it was read. -/
theorem Frugal.convert_of_inverse {c : Codec β} (hc : c.Frugal) {toCode : γ → β}
    {ofCode : β → γ} (h : ∀ x, toCode (ofCode x) = x) : (c.convert toCode ofCode).Frugal :=
  hc.convert fun x => by rw [h]

theorem Frugal.both {c : Codec β} {d : Codec γ} (hc : c.Frugal) (hd : d.Frugal) :
    (c.both d).Frugal := by
  intro b z rest hread
  obtain ⟨x, mid, hx, hrest⟩ := andThen_eq_ok
    (f := fun x => andThen d.read fun y rest => .ok ((x, y), rest)) hread
  obtain ⟨y, hy, rfl⟩ := andThen_ok_eq_ok hrest
  have hfirst := hc.length_le hx
  have hsecond := hd.length_le hy
  show (c.write x ++ d.write y).length + rest.length ≤ b.length
  rw [List.length_append]
  omega

theorem Frugal.option {c : Codec β} (hc : c.Frugal) : (option c).Frugal := by
  intro b z rest hread
  cases b with
  | nil => cases hread
  | cons byte b =>
      simp only [Codec.option] at hread
      split at hread
      · obtain ⟨rfl, rfl⟩ := Prod.mk.inj (Except.ok.inj hread)
        exact Nat.le_of_eq (Nat.add_comm 1 b.length)
      · split at hread
        · obtain ⟨x, hx, rfl⟩ := andThen_ok_eq_ok hread
          have htaken := hc.length_le hx
          show (c.write x).length + 1 + rest.length ≤ b.length + 1
          omega
        · cases hread

/-! ## Numbers -/

/-- A number in base 128 has at least as many digits as it needs. -/
theorem frugal_varint (last size : Nat) : (varint last size).Frugal := by
  show Takes (readVarint last size) fun n => (writeVarint size n).length
  induction size with
  | zero => exact fun _ _ _ hread => nomatch hread
  | succ size ih =>
      intro b n rest hread
      cases b with
      | nil => cases hread
      | cons byte b =>
          simp only [readVarint] at hread
          split at hread
          · next hlast =>
            split at hread
            · cases hread
            · obtain ⟨rfl, rfl⟩ := Prod.mk.inj (Except.ok.inj hread)
              show (writeVarint (size + 1) byte.toNat).length + b.length ≤ b.length + 1
              rw [writeVarint, if_pos hlast]
              exact Nat.le_of_eq (Nat.add_comm 1 b.length)
          · obtain ⟨m, hm, rfl⟩ :=
              andThen_ok_eq_ok (f := (byte.toNat - 128 + 128 * ·)) hread
            have hdigit : byte.toNat - 128 < 128 := by
              have hbyte := byte.toNat_lt
              omega
            have htaken : (writeVarint size m).length + rest.length ≤ b.length := ih hm
            show (writeVarint (size + 1) (byte.toNat - 128 + 128 * m)).length + rest.length ≤
              b.length + 1
            rw [writeVarint, Nat.add_mul_div_left _ _ (by decide : 0 < 128),
              Nat.div_eq_of_lt hdigit, Nat.zero_add]
            -- the digits above the first one may all be superfluous
            split <;> simp only [List.length_cons, List.length_nil] <;> omega

theorem frugal_varint32 : varint32.Frugal := frugal_varint 15 5

theorem frugal_varint64 : varint64.Frugal := frugal_varint 1 10

/-- A smaller number has no more digits. -/
theorem length_writeVarint_mono (size : Nat) : ∀ {m n : Nat}, m ≤ n →
    (writeVarint size m).length ≤ (writeVarint size n).length := by
  induction size with
  | zero => exact fun _ => Nat.le_refl 0
  | succ size ih =>
      intro m n hmn
      have hdigits := ih (Nat.div_le_div_right hmn : m / 128 ≤ n / 128)
      rw [writeVarint, writeVarint]
      split <;> split <;> simp only [List.length_cons, List.length_nil] <;> omega

theorem frugal_uint32 : uint32.Frugal :=
  frugal_varint32.convert fun n => length_writeVarint_mono 5 (Nat.mod_le n _)

theorem frugal_uint64 : uint64.Frugal :=
  frugal_varint64.convert fun n => length_writeVarint_mono 10 (Nat.mod_le n _)

theorem length_writeWord (size n : Nat) : (writeWord size n).length = size := by
  induction size generalizing n with
  | zero => rfl
  | succ size ih => rw [writeWord, List.length_cons, ih]

theorem takes_readWord (size : Nat) : Takes (readWord size) fun _ => size := by
  induction size with
  | zero =>
      intro b n rest hread
      obtain ⟨-, rfl⟩ := Prod.mk.inj (Except.ok.inj hread)
      exact Nat.le_of_eq (Nat.zero_add _)
  | succ size ih =>
      intro b n rest hread
      cases b with
      | nil => cases hread
      | cons byte b =>
          obtain ⟨m, hm, -⟩ := andThen_ok_eq_ok (f := (byte.toNat + 256 * ·)) hread
          have htaken : size + rest.length ≤ b.length := ih hm
          show size + 1 + rest.length ≤ b.length + 1
          omega

theorem frugal_word : word.Frugal := by
  intro b w rest hread
  obtain ⟨n, hn, -⟩ := andThen_ok_eq_ok (f := Nat.toUInt64) hread
  show (writeWord 8 w.toNat).length + rest.length ≤ b.length
  rw [length_writeWord]
  exact takes_readWord 8 hn

/-! ## Lists -/

theorem readMany_eq_ok {c : Codec β} (hc : c.Frugal) {n : Nat} :
    ∀ {b rest : Bytes} {xs : List β}, readMany c n b = .ok (xs, rest) →
      xs.length = n ∧ (xs.flatMap c.write).length + rest.length ≤ b.length := by
  induction n with
  | zero =>
      intro b rest xs hread
      obtain ⟨rfl, rfl⟩ := Prod.mk.inj (Except.ok.inj hread)
      exact ⟨rfl, Nat.le_of_eq (Nat.zero_add _)⟩
  | succ n ih =>
      intro b rest ys hread
      obtain ⟨x, mid, hx, hrest⟩ := andThen_eq_ok
        (f := fun x => andThen (readMany c n) fun xs rest => .ok (x :: xs, rest)) hread
      obtain ⟨xs, hxs, rfl⟩ := andThen_ok_eq_ok hrest
      obtain ⟨hcount, hitems⟩ := ih hxs
      have hfirst := hc.length_le hx
      rw [List.length_cons, hcount, List.flatMap_cons, List.length_append]
      exact ⟨rfl, by omega⟩

theorem Frugal.list {c : Codec β} (hc : c.Frugal) : (list c).Frugal := by
  intro b xs rest hread
  obtain ⟨n, mid, hn, hxs⟩ := andThen_eq_ok (f := readMany c) hread
  obtain ⟨rfl, hitems⟩ := readMany_eq_ok hc hxs
  have hcount := frugal_varint64.length_le hn
  show (varint64.write xs.length ++ xs.flatMap c.write).length + rest.length ≤ b.length
  rw [List.length_append]
  omega

/-- Fewer of the same items, in any order, take no more bytes. -/
theorem length_write_list_le {c : Codec β} {xs ys : List β} (h : xs.Subperm ys) :
    ((list c).write xs).length ≤ ((list c).write ys).length := by
  have hcount := length_writeVarint_mono 10 h.length_le
  obtain ⟨zs, hperm, hsublist⟩ := h
  have hitems : (xs.flatMap c.write).length ≤ (ys.flatMap c.write).length := by
    rw [← (hperm.flatMap_right c.write).length_eq]
    exact (hsublist.flatMap c.write).length_le
  show (writeVarint 10 xs.length ++ xs.flatMap c.write).length ≤
    (writeVarint 10 ys.length ++ ys.flatMap c.write).length
  rw [List.length_append, List.length_append]
  exact Nat.add_le_add hcount hitems

/-! ## Texts -/

theorem ofText_of_text? {b : Bytes} {s : String} (h : Bytes.text? b = some s) :
    Bytes.ofText s = b := by
  unfold Bytes.text? String.fromUTF8? at h
  split at h
  · cases h
    rfl
  · cases h

theorem readText_eq_ok {n : Nat} {b rest : Bytes} {s : String}
    (h : readText n b = .ok (s, rest)) :
    (Bytes.ofText s).length = n ∧ n + rest.length = b.length := by
  rw [readText] at h
  split at h
  · cases h
  · next hlength =>
    split at h
    · next s' htext =>
      obtain ⟨rfl, rfl⟩ := Prod.mk.inj (Except.ok.inj h)
      rw [ofText_of_text? htext, List.length_take, List.length_drop]
      omega
    · cases h

theorem frugal_text : text.Frugal := by
  intro b s rest hread
  obtain ⟨n, mid, hn, hs⟩ := andThen_eq_ok (f := readText) hread
  obtain ⟨rfl, hbytes⟩ := readText_eq_ok hs
  have hcount := frugal_varint64.length_le hn
  show (varint64.write (Bytes.ofText s).length ++ Bytes.ofText s).length + rest.length ≤ b.length
  rw [List.length_append]
  omega

/-! ## The codecs of a snapshot -/

theorem frugal_procedureId : procedureId.Frugal := frugal_uint32.convert_of_inverse fun _ => rfl

theorem frugal_statementId : statementId.Frugal := frugal_uint32.convert_of_inverse fun _ => rfl

theorem frugal_partitionId : partitionId.Frugal := frugal_uint32.convert_of_inverse fun _ => rfl

theorem frugal_vertexId : vertexId.Frugal := frugal_uint32.convert_of_inverse fun _ => rfl

theorem frugal_edgeId : edgeId.Frugal := frugal_uint32.convert_of_inverse fun _ => rfl

theorem frugal_elementId : elementId.Frugal := frugal_uint64.convert_of_inverse fun _ => rfl

theorem frugal_binary64 : binary64.Frugal := frugal_word.convert_of_inverse fun _ => rfl

theorem frugal_partitionSet : partitionSet.Frugal :=
  frugal_partitionId.list.convert fun ps =>
    length_write_list_le (PartitionSet.ids_ofList_subperm ps)

theorem kindOf_eq_ok {n : Nat} {b rest : Bytes} {k : VertexKind}
    (h : kindOf n b = .ok (k, rest)) : kindIndex k = n ∧ b = rest := by
  unfold kindOf at h
  split at h
  case h_5 => cases h
  all_goals
    obtain ⟨rfl, rfl⟩ := Prod.mk.inj (Except.ok.inj h)
    exact ⟨rfl, rfl⟩

theorem frugal_vertexKind : vertexKind.Frugal := by
  intro b k rest hread
  obtain ⟨n, mid, hn, hk⟩ := andThen_eq_ok (f := kindOf) hread
  obtain ⟨rfl, rfl⟩ := kindOf_eq_ok hk
  exact frugal_varint32.length_le hn

theorem frugal_forecast : forecast.Frugal := by
  refine Frugal.convert_of_inverse (frugal_binary64.both <| frugal_binary64.both <|
    frugal_binary64.both ?_) fun _ => rfl
  exact (frugal_partitionId.both frugal_binary64).list.convert fun es =>
    length_write_list_le (Table.entries_ofList_subperm es)

theorem frugal_snapshotVertex : snapshotVertex.Frugal :=
  Frugal.convert_of_inverse (frugal_vertexId.both <| frugal_elementId.both <|
    frugal_vertexKind.both <| frugal_statementId.option.both <| frugal_uint32.both <|
    frugal_partitionSet.both <| frugal_partitionSet.both <| frugal_uint64.both <|
    frugal_uint64.both <| frugal_binary64.option.both frugal_forecast) fun _ => rfl

theorem frugal_snapshotEdge : snapshotEdge.Frugal :=
  Frugal.convert_of_inverse (frugal_edgeId.both <| frugal_elementId.both <|
    frugal_vertexId.both <| frugal_vertexId.both <| frugal_uint64.both <|
    frugal_uint64.both frugal_binary64) fun _ => rfl

theorem frugal_snapshot : snapshot.Frugal :=
  Frugal.convert_of_inverse (frugal_procedureId.both <| frugal_text.both <|
    frugal_uint64.both <| frugal_uint64.both <|
    frugal_snapshotVertex.list.both frugal_snapshotEdge.list) fun _ => rfl

end Codec

/-! ## The file -/

theorem Header.eq_of_read {b payload : Bytes} {header : Header}
    (h : read b = .ok (header, payload)) : b = header.bytes ++ payload := by
  unfold read at h
  split at h
  · cases h
    rfl
  · cases h

theorem Header.eq_standard_of_validate {header : Header} (h : header.validate = .ok ()) :
    header = standard := by
  unfold validate at h
  split at h
  · cases h
  · next hmagic =>
    split at h
    · cases h
    · next hversion =>
      cases header
      rw [standard, ← not_not.mp hmagic, ← not_not.mp hversion]

namespace Snapshot

/-- A file that is read has a standard header, and its payload decides. -/
theorem eq_of_ofBinary {b : Bytes} {s : Snapshot Binary64} (h : ofBinary b = .ok s) :
    b.length ≤ maxBinarySize ∧ ∃ payload rest, b = Header.standard.bytes ++ payload ∧
      Codec.snapshot.read payload = .ok (s, rest) := by
  have hsize : b.length ≤ maxBinarySize := by
    rw [ofBinary] at h
    split at h
    · cases h
    · next hle => exact Nat.le_of_not_lt hle
  have hheader : ∃ payload, b = Header.standard.bytes ++ payload := by
    rw [ofBinary, if_neg (Nat.not_lt.mpr hsize)] at h
    cases hread : Header.read b with
    | error fault =>
        rw [hread] at h
        cases h
    | ok found =>
        obtain ⟨header, payload⟩ := found
        cases hvalid : header.validate with
        | error fault =>
            simp only [hread, hvalid, bind, Except.bind] at h
            cases h
        | ok =>
            rw [← Header.eq_standard_of_validate hvalid]
            exact ⟨payload, Header.eq_of_read hread⟩
  obtain ⟨payload, rfl⟩ := hheader
  rw [ofBinary_header hsize] at h
  split at h
  · next s' rest hread =>
    cases h
    exact ⟨hsize, payload, rest, rfl, hread⟩
  · cases h

/-- A snapshot that was read from a file is written in at most as many bytes and read back from
them, floats by their bits. -/
theorem ofBinary_rewrite {b : Bytes} {s : Snapshot Binary64} (h : ofBinary b = .ok s) :
    s.toBinary.length ≤ b.length ∧ ofBinary s.toBinary = .ok s := by
  obtain ⟨hsize, payload, rest, rfl, hread⟩ := eq_of_ofBinary h
  have htaken := Codec.frugal_snapshot.length_le hread
  have hlength : s.toBinary.length ≤ (Header.standard.bytes ++ payload).length := by
    rw [toBinary, List.length_append, List.length_append]
    omega
  have hpayload : (Codec.snapshot.write s).length < UInt64.size := by
    have hfits : maxBinarySize < UInt64.size := by decide
    rw [List.length_append] at hsize
    omega
  have hwhole := (Codec.lossless_snapshot s hpayload).reads.whole []
  rw [List.append_nil] at hwhole
  refine ⟨hlength, ?_⟩
  rw [toBinary, ofBinary_header (Nat.le_trans hlength hsize), hwhole]

/-- A file with superfluous digits, a set and a map out of order and with repetitions, and one byte
after the snapshot. -/
def untidy : Bytes :=
  [0x54, 0x58, 0x4e, 0x50, 1, 0x83, 0x80, 0, 0x84, 0, 0x70, 0x61, 0xc3, 0xa9, 5, 0, 0x81, 0] ++
  [0x83, 0, 0xac, 2, 0x81, 0, 1, 10, 1, 3, 7, 0, 7, 0x81, 0, 0, 1, 0, 0] ++
  List.replicate 24 0xff ++
  [3, 7] ++ List.replicate 8 1 ++ [0] ++ List.replicate 8 2 ++ [0x87, 0] ++ List.replicate 8 3 ++
  [0x80, 0, 0xff]

def tidy : Bytes :=
  [0x54, 0x58, 0x4e, 0x50, 1, 3, 4, 0x70, 0x61, 0xc3, 0xa9, 5, 0, 1] ++
  [3, 0xac, 2, 1, 1, 10, 1, 2, 0, 7, 1, 0, 1, 0, 0] ++
  List.replicate 24 0xff ++
  [2, 0] ++ List.replicate 8 2 ++ [7] ++ List.replicate 8 3 ++
  [0]

theorem ofBinary_rewrite_untidy :
    untidy.length = 93 ∧ tidy.length = 73 ∧
      ∃ s, ofBinary untidy = .ok s ∧ s.toBinary = tidy ∧ ofBinary tidy = .ok s := by
  have hwritten : (ofBinary untidy).toOption.map toBinary = some tidy := by decide +kernel
  cases hread : ofBinary untidy with
  | error fault =>
      rw [hread] at hwritten
      cases hwritten
  | ok s =>
      rw [hread] at hwritten
      have htidy : s.toBinary = tidy := Option.some.inj hwritten
      obtain ⟨-, hagain⟩ := ofBinary_rewrite hread
      rw [htidy] at hagain
      exact ⟨by decide, by decide, s, rfl, htidy, hagain⟩

end Snapshot

end PathForecast
