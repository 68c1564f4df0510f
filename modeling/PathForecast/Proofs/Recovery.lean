import Mathlib.Tactic
import PathForecast.Codec

/-!
# Codecs that lose nothing

A reader takes a value off the front of a byte string. It *reads* the value from some bytes if it
finds it there, whatever follows them, and finds nothing in less than all of them (`Reads`). Readers
that are put together read from the bytes put together (`Reads.bind`), so a codec is lossless if its
parts are. The numbers of items and bytes that a codec writes have to fit a 64-bit word; they do if
the bytes are not too many, since no item is written as nothing. Main statements: `recovers_varint`,
`Lossless.both`, `Lossless.convert`, `Lossless.option`, `Lossless.list` and `lossless_text`.
-/

set_option autoImplicit false

namespace PathForecast

namespace Codec

variable {β γ : Type}

/-! ## Readers -/

/-- A reader that goes on with another one, which may depend on the value. -/
def andThen (read : Bytes → Except DecodeFault (β × Bytes))
    (next : β → Bytes → Except DecodeFault (γ × Bytes)) (b : Bytes) :
    Except DecodeFault (γ × Bytes) := do
  let (x, rest) ← read b
  next x rest

/-- The value is found at the front of the bytes, and in no part of them. -/
structure Reads (read : Bytes → Except DecodeFault (β × Bytes)) (bytes : Bytes) (x : β) :
    Prop where
  whole : ∀ rest, read (bytes ++ rest) = .ok (x, rest)
  cut : ∀ front back, front ++ back = bytes → back ≠ [] → ∃ fault, read front = .error fault

/-- Bytes that are cut off end within the first of two parts, or at its end or later. -/
theorem append_cut {front back xs ys : Bytes} (h : front ++ back = xs ++ ys) :
    (∃ mid, mid ≠ [] ∧ front ++ mid = xs) ∨ ∃ more, front = xs ++ more ∧ more ++ back = ys := by
  rcases List.append_eq_append_iff.mp h with ⟨mid, hxs, hback⟩ | ⟨more, hfront, hys⟩
  · -- bytes that end exactly with the first part lack the second one
    by_cases hmid : mid = []
    · subst hmid
      rw [List.append_nil] at hxs
      exact .inr ⟨[], by rw [hxs, List.append_nil], hback⟩
    · exact .inl ⟨mid, hmid, hxs.symm⟩
  · exact .inr ⟨more, hfront, hys.symm⟩

namespace Reads

variable {read : Bytes → Except DecodeFault (β × Bytes)} {bytes : Bytes} {x : β}

/-- A reader that needs no byte. -/
theorem of_nil (h : ∀ rest, read rest = .ok (x, rest)) : Reads read [] x where
  whole := h
  cut _ _ hcut hback := absurd (List.append_eq_nil_iff.mp hcut).2 hback

theorem bind (h : Reads read bytes x) (next : β → Bytes → Except DecodeFault (γ × Bytes))
    {more : Bytes} {y : γ} (hnext : Reads (next x) more y) :
    Reads (andThen read next) (bytes ++ more) y where
  whole rest := by
    rw [List.append_assoc, andThen, h.whole]
    exact hnext.whole rest
  cut front back hcut hback := by
    rw [andThen]
    rcases append_cut hcut with ⟨mid, hmid, hfirst⟩ | ⟨rest, rfl, hsecond⟩
    · obtain ⟨fault, hfault⟩ := h.cut front mid hfirst hmid
      rw [hfault]
      exact ⟨fault, rfl⟩
    · rw [h.whole]
      exact hnext.cut rest back hsecond hback

/-- A reader that goes on without reading more. -/
theorem map (h : Reads read bytes x) (f : β → γ) {y : γ} (hy : f x = y) :
    Reads (andThen read fun x rest => .ok (f x, rest)) bytes y := by
  have hbind := h.bind (fun x rest => .ok (f x, rest)) (of_nil fun rest => by rw [hy])
  rwa [List.append_nil] at hbind

/-- A reader that takes one byte and goes on. -/
theorem cons {byte : UInt8} {next : Bytes → Except DecodeFault (β × Bytes)} {fault : DecodeFault}
    (hnil : read [] = .error fault) (hcons : ∀ rest, read (byte :: rest) = next rest)
    (h : Reads next bytes x) : Reads read (byte :: bytes) x where
  whole rest := by
    rw [List.cons_append, hcons]
    exact h.whole rest
  cut front back hcut hback := by
    cases front with
    | nil => exact ⟨fault, hnil⟩
    | cons b front =>
        obtain ⟨rfl, hrest⟩ := List.cons.inj hcut
        rw [hcons]
        exact h.cut front back hrest hback

end Reads

/-- A value that is written as some bytes and read from them. -/
structure Recovers (c : Codec β) (x : β) : Prop where
  nonempty : c.write x ≠ []
  reads : Reads c.read (c.write x) x

theorem Recovers.of_write {c : Codec β} {x : β} {bytes : Bytes} (hwrite : c.write x = bytes)
    (hne : bytes ≠ []) (hreads : Reads c.read bytes x) : c.Recovers x := by
  subst hwrite
  exact ⟨hne, hreads⟩

/-- Every value is recovered, unless its bytes are too many to be counted. -/
def Lossless (c : Codec β) : Prop := ∀ x, (c.write x).length < UInt64.size → c.Recovers x

/-! ## Numbers -/

theorem toNat_toUInt8 {n : Nat} (h : n < 256) : n.toUInt8.toNat = n := Nat.mod_eq_of_lt h

/-- Numbers of at most `size` bytes, the last possible one at most `last`. -/
def varint (last size : Nat) : Codec Nat := ⟨writeVarint size, readVarint last size⟩

section Varint

variable {last size n : Nat}

/-- The last digit. -/
theorem recovers_varint_last (hn : n < 128) (hlast : size = 0 → n ≤ last) :
    (varint last (size + 1)).Recovers n := by
  have hwrite : (varint last (size + 1)).write n = [n.toUInt8] := if_pos hn
  have hread : ∀ rest, (varint last (size + 1)).read (n.toUInt8 :: rest) = .ok (n, rest) := by
    intro rest
    have hfits : ¬(size = 0 ∧ last < n) := fun h => Nat.not_lt.mpr (hlast h.1) h.2
    show readVarint last (size + 1) (n.toUInt8 :: rest) = _
    rw [readVarint, toNat_toUInt8 (by omega), if_pos hn, if_neg hfits]
  exact .of_write hwrite (List.cons_ne_nil _ _) (.cons rfl hread (.of_nil fun _ => rfl))

/-- A digit before the others. -/
theorem recovers_varint_more (hn : 128 ≤ n) (h : (varint last size).Recovers (n / 128)) :
    (varint last (size + 1)).Recovers n := by
  have hdigit : n % 128 < 128 := Nat.mod_lt n (by decide)
  have hwrite : (varint last (size + 1)).write n =
      (128 + n % 128).toUInt8 :: (varint last size).write (n / 128) := if_neg (Nat.not_lt.mpr hn)
  have hread : ∀ rest, (varint last (size + 1)).read ((128 + n % 128).toUInt8 :: rest) =
      andThen (varint last size).read (fun m rest => .ok (n % 128 + 128 * m, rest)) rest := by
    intro rest
    show readVarint last (size + 1) ((128 + n % 128).toUInt8 :: rest) = _
    rw [readVarint, toNat_toUInt8 (by omega), if_neg (by omega), Nat.add_sub_cancel_left]
    rfl
  exact .of_write hwrite (List.cons_ne_nil _ _)
    (.cons rfl hread (h.reads.map (n % 128 + 128 * ·) (Nat.mod_add_div n 128)))

/-- A number is recovered if its last possible digit is at most `last`. -/
theorem recovers_varint (hlast : last < 128) (hn : n < (last + 1) * 128 ^ size) :
    (varint last (size + 1)).Recovers n := by
  induction size generalizing n with
  | zero =>
      rw [Nat.pow_zero, Nat.mul_one] at hn
      exact recovers_varint_last (by omega) fun _ => Nat.le_of_lt_succ hn
  | succ size ih =>
      rcases Nat.lt_or_ge n 128 with hsmall | hlarge
      · exact recovers_varint_last hsmall nofun
      · refine recovers_varint_more hlarge (ih (Nat.div_lt_of_lt_mul ?_))
        calc n < (last + 1) * 128 ^ (size + 1) := hn
          _ = 128 * ((last + 1) * 128 ^ size) := by ring

theorem recovers_varint32 (hn : n < UInt32.size) : varint32.Recovers n :=
  show (varint 15 5).Recovers n from recovers_varint (by decide) hn

theorem recovers_varint64 (hn : n < UInt64.size) : varint64.Recovers n :=
  show (varint 1 10).Recovers n from recovers_varint (by decide) hn

end Varint

/-- A number of a fixed width is read from its bytes. -/
theorem reads_word (size : Nat) : ∀ {n : Nat}, n < 256 ^ size →
    Reads (readWord size) (writeWord size n) n := by
  induction size with
  | zero =>
      intro n hn
      obtain rfl : n = 0 := by omega
      exact .of_nil fun _ => rfl
  | succ size ih =>
      intro n hn
      have hvalue : (n % 256).toUInt8.toNat + 256 * (n / 256) = n := by
        rw [toNat_toUInt8 (Nat.mod_lt n (by decide)), Nat.mod_add_div]
      have hrest : n / 256 < 256 ^ size := by
        refine Nat.div_lt_of_lt_mul ?_
        rwa [Nat.pow_succ, Nat.mul_comm] at hn
      exact .cons rfl (fun _ => rfl) ((ih hrest).map ((n % 256).toUInt8.toNat + 256 * ·) hvalue)

/-! ## Codecs put together -/

theorem Recovers.convert {c : Codec β} {toCode : γ → β} {ofCode : β → γ} {x : γ}
    (h : c.Recovers (toCode x)) (hx : ofCode (toCode x) = x) :
    (c.convert toCode ofCode).Recovers x :=
  ⟨h.nonempty, h.reads.map ofCode hx⟩

theorem Lossless.convert {c : Codec β} (hc : c.Lossless) {toCode : γ → β} {ofCode : β → γ}
    (h : ∀ x, ofCode (toCode x) = x) : (c.convert toCode ofCode).Lossless :=
  fun x hx => (hc (toCode x) hx).convert (h x)

theorem Recovers.both {c : Codec β} {d : Codec γ} {x : β × γ} (hc : c.Recovers x.1)
    (hd : d.Recovers x.2) : (c.both d).Recovers x where
  nonempty h := hc.nonempty (List.append_eq_nil_iff.mp h).1
  reads := hc.reads.bind (fun x => andThen d.read fun y rest => .ok ((x, y), rest))
    (hd.reads.map (Prod.mk x.1) rfl)

theorem Lossless.both {c : Codec β} {d : Codec γ} (hc : c.Lossless) (hd : d.Lossless) :
    (c.both d).Lossless := by
  intro x hx
  have hlength : (c.write x.1).length + (d.write x.2).length < UInt64.size := by
    rw [← List.length_append]
    exact hx
  exact (hc x.1 (by omega)).both (hd x.2 (by omega))

theorem Lossless.option {c : Codec β} (hc : c.Lossless) : (option c).Lossless := by
  intro x hx
  cases x with
  | none => exact ⟨List.cons_ne_nil _ _, .cons rfl (fun _ => rfl) (.of_nil fun _ => rfl)⟩
  | some x =>
      have hvalue := (hc x (Nat.lt_of_succ_lt hx)).reads
      exact ⟨List.cons_ne_nil _ _, .cons rfl (fun _ => rfl) (hvalue.map some rfl)⟩

/-! ## Lists -/

theorem reads_many {c : Codec β} {xs : List β} (h : ∀ x ∈ xs, c.Recovers x) :
    Reads (readMany c xs.length) (xs.flatMap c.write) xs := by
  induction xs with
  | nil => exact .of_nil fun _ => rfl
  | cons x xs ih =>
      obtain ⟨hx, hxs⟩ := List.forall_mem_cons.mp h
      rw [List.flatMap_cons]
      exact hx.reads.bind
        (fun x => andThen (readMany c xs.length) fun xs rest => .ok (x :: xs, rest))
        ((ih hxs).map (x :: ·) rfl)

/-- Items of at least one byte each are no more than their bytes. -/
theorem length_le_flatMap {c : Codec β} {xs : List β} (h : ∀ x ∈ xs, c.write x ≠ []) :
    xs.length ≤ (xs.flatMap c.write).length := by
  induction xs with
  | nil => exact Nat.le_refl 0
  | cons x xs ih =>
      obtain ⟨hx, hxs⟩ := List.forall_mem_cons.mp h
      have hfirst := List.length_pos_iff.mpr hx
      have hrest := ih hxs
      rw [List.flatMap_cons, List.length_append, List.length_cons]
      omega

theorem length_write_le {c : Codec β} {xs : List β} {x : β} (hx : x ∈ xs) :
    (c.write x).length ≤ (xs.flatMap c.write).length := by
  obtain ⟨before, after, rfl⟩ := List.append_of_mem hx
  rw [List.flatMap_append, List.flatMap_cons, List.length_append, List.length_append]
  omega

theorem Lossless.list {c : Codec β} (hc : c.Lossless) : (list c).Lossless := by
  intro xs hxs
  have hsum : (varint64.write xs.length).length + (xs.flatMap c.write).length < UInt64.size := by
    rw [← List.length_append]
    exact hxs
  have hitems : ∀ x ∈ xs, c.Recovers x := by
    intro x hx
    have hlength := length_write_le (c := c) hx
    exact hc x (by omega)
  -- so the number of items is no larger than that of their bytes, and fits a word
  have hlength := length_le_flatMap fun x hx => (hitems x hx).nonempty
  have hcount : varint64.Recovers xs.length := recovers_varint64 (by omega)
  exact ⟨fun h => hcount.nonempty (List.append_eq_nil_iff.mp h).1,
    hcount.reads.bind (readMany c) (reads_many hitems)⟩

/-! ## Words and text -/

theorem lossless_uint32 : uint32.Lossless := fun n _ =>
  (recovers_varint32 n.toNat_lt).convert (UInt32.ofNat_toNat)

theorem lossless_uint64 : uint64.Lossless := fun n _ =>
  (recovers_varint64 n.toNat_lt).convert (UInt64.ofNat_toNat)

theorem lossless_word : word.Lossless := fun w _ =>
  ⟨List.cons_ne_nil _ _, (reads_word 8 w.toNat_lt).map _ UInt64.ofNat_toNat⟩

def readText (n : Nat) (b : Bytes) : Except DecodeFault (String × Bytes) := do
  if b.length < n then throw .endOfData
  match Bytes.text? (b.take n) with
  | some s => return (s, b.drop n)
  | none => throw .badText

theorem reads_text (s : String) :
    Reads (readText (Bytes.ofText s).length) (Bytes.ofText s) s where
  whole rest := by
    have hlength : ¬(Bytes.ofText s ++ rest).length < (Bytes.ofText s).length := by
      rw [List.length_append]
      omega
    rw [readText, if_neg hlength, List.take_left, Bytes.text?_ofText, List.drop_left]
    rfl
  cut front back hcut hback := by
    have hlength : front.length < (Bytes.ofText s).length := by
      rw [← hcut, List.length_append]
      exact Nat.lt_add_of_pos_right (List.length_pos_iff.mpr hback)
    rw [readText, if_pos hlength]
    exact ⟨.endOfData, rfl⟩

theorem lossless_text : text.Lossless := by
  intro s hs
  have hlength : (varint64.write (Bytes.ofText s).length).length + (Bytes.ofText s).length <
      UInt64.size := by
    rw [← List.length_append]
    exact hs
  have hcount : varint64.Recovers (Bytes.ofText s).length := recovers_varint64 (by omega)
  exact ⟨fun h => hcount.nonempty (List.append_eq_nil_iff.mp h).1,
    hcount.reads.bind readText (reads_text s)⟩

end Codec

end PathForecast
