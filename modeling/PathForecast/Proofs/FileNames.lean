import PathForecast.Proofs.Places
import PathForecast.Snapshot.File

/-!
# File names

A procedure's name loses its odd characters on the way into a file name, and it may hold hyphens and
digits of its own. All the same a file name tells the id: behind the last point stands the
extension, and between the last hyphen and that point stand the digits, which hold no hyphen. Main
statements: `procedure_eq_of_fileName`, and `fileName_spelling`, what a file name is made of.
-/

set_option autoImplicit false

namespace PathForecast

/-- A list is cut at the last place of an item in one way. -/
theorem append_cons_inj {β : Type} {a : β} {l l' r r' : List β} (hr : a ∉ r) (hr' : a ∉ r')
    (h : l ++ a :: r = l' ++ a :: r') : l = l' ∧ r = r' := by
  -- if one front were longer, the item would stand in the other rest
  rcases List.append_eq_append_iff.mp h with ⟨mid, rfl, hrest⟩ | ⟨mid, rfl, hrest⟩
  · cases mid with
    | nil => exact ⟨(List.append_nil l).symm, (List.cons.inj hrest).2⟩
    | cons b mid =>
        obtain ⟨-, rfl⟩ := List.cons.inj hrest
        exact absurd (List.mem_append_right mid List.mem_cons_self) hr
  · cases mid with
    | nil => exact ⟨List.append_nil l', (List.cons.inj hrest).2.symm⟩
    | cons b mid =>
        obtain ⟨-, rfl⟩ := List.cons.inj hrest
        exact absurd (List.mem_append_right mid List.mem_cons_self) hr'

namespace Decimal

theorem isDigit_of_mem_digitsOf {n : Nat} {c : Char} (h : c ∈ digitsOf n) : c.isDigit = true :=
  Nat.isDigit_of_mem_toDigits (by decide) (by decide) h

/-- Digits tell their number. -/
theorem digitsOf_inj {m n : Nat} (h : digitsOf m = digitsOf n) : m = n := by
  have hread : Nat.ofDigitChars 10 (digitsOf m) 0 = Nat.ofDigitChars 10 (digitsOf n) 0 := by rw [h]
  rwa [digitsOf, digitsOf, Nat.ofDigitChars_toDigits (by decide) (by decide),
    Nat.ofDigitChars_toDigits (by decide) (by decide)] at hread

end Decimal

/-! ## The parts of a file name -/

def fileStem (procedure : ProcedureId) (name : String) : List Char :=
  name.toList.map (fun c => if isPlainChar c then c else '_') ++
    '-' :: Decimal.digitsOf procedure.number.toNat

section FileName

variable (procedure : ProcedureId) (name : String) (format : SnapshotFormat)

theorem toList_snapshotFileName : (snapshotFileName procedure name format).toList =
    fileStem procedure name ++ '.' :: format.fileExtension.toList := by
  simp [snapshotFileName, fileStem, String.toList_append]

theorem isPlainChar_of_mem_fileStem {c : Char} (h : c ∈ fileStem procedure name) :
    isPlainChar c = true := by
  rcases List.mem_append.mp h with hname | hid
  · obtain ⟨d, -, rfl⟩ := List.mem_map.mp hname
    by_cases hd : isPlainChar d = true
    · rwa [if_pos hd]
    · rw [if_neg hd]
      decide
  · rcases List.mem_cons.mp hid with rfl | hdigit
    · decide
    · have hdigit := Decimal.isDigit_of_mem_digitsOf hdigit
      simp [isPlainChar, Char.isAlphanum, hdigit]

theorem hyphen_mem_fileStem : '-' ∈ fileStem procedure name :=
  List.mem_append_right _ List.mem_cons_self

theorem not_mem_fileExtension : '.' ∉ format.fileExtension.toList := by
  cases format <;> decide

variable {procedure name format}

/-- A file name tells the procedure. -/
theorem procedure_eq_of_fileName {procedure' : ProcedureId} {name' : String}
    {format' : SnapshotFormat}
    (h : snapshotFileName procedure name format = snapshotFileName procedure' name' format') :
    procedure = procedure' := by
  -- first the extension is cut off at the last point, then the name at the last hyphen
  have hlist := congrArg String.toList h
  rw [toList_snapshotFileName, toList_snapshotFileName] at hlist
  have hstem : fileStem procedure name = fileStem procedure' name' :=
    (append_cons_inj (not_mem_fileExtension format) (not_mem_fileExtension format') hlist).1
  have hhyphen : ∀ n, '-' ∉ Decimal.digitsOf n := fun n hmem =>
    absurd (Decimal.isDigit_of_mem_digitsOf hmem) (by decide)
  have hdigits := (append_cons_inj (hhyphen _) (hhyphen _) hstem).2
  have hnumber := UInt32.toNat_inj.mp (Decimal.digitsOf_inj hdigits)
  cases procedure
  cases procedure'
  exact congrArg ProcedureId.mk hnumber

/-- A file name is plain characters, a point and the extension. -/
theorem fileName_spelling (procedure : ProcedureId) (name : String) (format : SnapshotFormat) :
    ∃ stem, snapshotFileName procedure name format = stem ++ "." ++ format.fileExtension ∧
      stem ≠ "" ∧ ∀ c ∈ stem.toList, isPlainChar c = true := by
  refine ⟨String.ofList (fileStem procedure name), ?_, ?_, ?_⟩
  · rw [← String.toList_inj, toList_snapshotFileName]
    simp [String.toList_append]
  · intro hempty
    have hmem := hyphen_mem_fileStem procedure name
    rw [← String.toList_inj, String.toList_ofList] at hempty
    rw [hempty] at hmem
    cases hmem
  · intro c hc
    rw [String.toList_ofList] at hc
    exact isPlainChar_of_mem_fileStem procedure name hc

/-- A file name is one part of a path and leads to an entry of a directory. -/
theorem isEntry_snapshotFileName (procedure : ProcedureId) (name : String)
    (format : SnapshotFormat) : IsEntry (snapshotFileName procedure name format) := by
  have hhyphen : '-' ∈ (snapshotFileName procedure name format).toList := by
    rw [toList_snapshotFileName]
    exact List.mem_append_left _ (hyphen_mem_fileStem procedure name)
  refine ⟨?_, ?_, ?_, fun hslash => ?_⟩
  · intro h
    rw [h] at hhyphen
    exact absurd hhyphen (by decide)
  · intro h
    rw [h] at hhyphen
    exact absurd hhyphen (by decide)
  · intro h
    rw [h] at hhyphen
    exact absurd hhyphen (by decide)
  · rw [toList_snapshotFileName] at hslash
    rcases List.mem_append.mp hslash with hstem | hextension
    · exact absurd (isPlainChar_of_mem_fileStem procedure name hstem) (by decide)
    · cases format <;> exact absurd hextension (by decide)

end FileName

end PathForecast
