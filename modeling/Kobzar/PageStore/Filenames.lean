import Kobzar.Library.Numerals
import Kobzar.PageStore.Isolation

/-!
# The files of different indexes

A primary index has a file for each type of a database, named after both in decimal digits. Another index has one
named after its number in hexadecimal digits, and not after its database, so that the indexes of one number in
different databases share a file (`filenames_apart_iff`).
-/

namespace Kobzar

open Numerals

/-! ## Names as characters -/

/-- A decimal number is written with no hyphen. -/
theorem hyphen_not_mem_toDigits (n : Nat) : '-' ∉ Nat.toDigits 10 n := by
  intro hmem
  have hdigit : '-'.isDigit := Nat.isDigit_of_mem_toDigits (by decide) (by decide) hmem
  exact absurd hdigit (by decide)

/-- The name of a primary index file. -/
theorem Pidx.Key.toList_filename (key : Key) : key.filename.toList =
    "pidx-".toList ++ (Nat.toDigits 10 key.db.toNat ++ '-' :: (Nat.toDigits 10 key.typeId.toNat ++ ".idx".toList)) := by
  simp [Key.filename, String.toList_append, Nat.toList_repr]

/-- The name of a primary index file tells the database and the type. -/
theorem Pidx.Key.filename_inj {key key' : Key} (h : key.filename = key'.filename) :
    key.db = key'.db ∧ key.typeId = key'.typeId := by
  have hlist := congrArg String.toList h
  rw [toList_filename, toList_filename] at hlist
  have hbehind := List.append_cancel_left hlist
  have hrest : '-' ∉ Nat.toDigits 10 key.typeId.toNat ++ ".idx".toList := by
    rw [List.mem_append]
    exact not_or.mpr ⟨hyphen_not_mem_toDigits _, by decide⟩
  obtain ⟨hdb, -, htype⟩ := (List.append_cons_inj_of_notMem (hyphen_not_mem_toDigits _) hrest).mp hbehind
  have htype' := toDigits_inj (by decide) (by decide) (List.append_cancel_right htype)
  exact ⟨BitVec.eq_of_toNat_eq (toDigits_inj (by decide) (by decide) hdb), BitVec.eq_of_toNat_eq htype'⟩

/-- The name of an index file. -/
theorem IdxKey.toList_filename (key : IdxKey) :
    (KeyExt.filename key).toList = Nat.toDigits 16 key.index.toNat ++ ".idx".toList := by
  simp [KeyExt.filename, hex, String.toList_append]

/-- The name of an index file tells the number of the index, and no more. -/
theorem IdxKey.filename_eq_iff {key key' : IdxKey} : KeyExt.filename key = KeyExt.filename key' ↔
    key.index = key'.index := by
  constructor
  · intro h
    have hlist := congrArg String.toList h
    rw [toList_filename, toList_filename] at hlist
    exact BitVec.eq_of_toNat_eq (toDigits_inj (by decide) (by decide) (List.append_cancel_right hlist))
  · intro h
    simp only [KeyExt.filename, h]

/-- The names of a primary index file and of another index file start with different letters. -/
theorem filename_ne_filename (key : Pidx.Key) (key' : IdxKey) : KeyExt.filename key ≠ KeyExt.filename key' := by
  intro h
  have hletter : (KeyExt.filename key).toList.head? = some 'p' := by
    show key.filename.toList.head? = some 'p'
    rw [Pidx.Key.toList_filename]
    rfl
  rw [h, IdxKey.toList_filename, List.head?_append_of_ne_nil _ Nat.toDigits_ne_nil] at hletter
  obtain ⟨d, hd, hchar⟩ := exists_of_mem_toDigits (by decide) (List.mem_of_mem_head? hletter)
  have hnone : ∀ d < 16, 'p' ≠ Nat.digitChar d := by decide
  exact hnone d hd hchar

/-! ## Which names differ -/

/-- When stores of pages do not share a file. Primary index keys that differ in database or type always give
different names, and so do a primary index key and an index key. Of index keys that differ in database or number,
exactly those that differ in the number do. A key gives the name that the page it is bound to does. -/
theorem filenames_apart_iff (key key' : Pidx.Key) (idx idx' : IdxKey) :
    (key.db ≠ key'.db ∨ key.typeId ≠ key'.typeId → KeyExt.filename key ≠ KeyExt.filename key') ∧
    (idx.db ≠ idx'.db ∨ idx.index ≠ idx'.index → (KeyExt.filename idx ≠ KeyExt.filename idx' ↔
      idx.index ≠ idx'.index)) ∧
    KeyExt.filename key ≠ KeyExt.filename idx ∧
    ((KeyExt.pageBound key : Pidx.PageBoundKey) = KeyExt.pageBound key' →
      KeyExt.filename key = KeyExt.filename key') ∧
    (KeyExt.pageBound idx = KeyExt.pageBound idx' → KeyExt.filename idx = KeyExt.filename idx') := by
  refine ⟨fun hne h => ?_, fun _ => not_congr IdxKey.filename_eq_iff, filename_ne_filename key idx, fun h => ?_,
    fun h => congrArg KeyExt.filename h⟩
  · obtain ⟨hdb, htype⟩ := Pidx.Key.filename_inj h
    rcases hne with hne | hne
    · exact hne hdb
    · exact hne htype
  · obtain ⟨htype, hdb, -⟩ := (Pidx.Key.pageBound_eq_iff key key').mp h
    show key.filename = key'.filename
    simp only [Pidx.Key.filename, htype, hdb]

/-- Index 7 of database 1 and index 7 of database 2 share a file. -/
theorem indexes_share_file :
    (⟨7, 1, 0⟩ : IdxKey).db ≠ (⟨7, 2, 0⟩ : IdxKey).db ∧
      KeyExt.filename (⟨7, 1, 0⟩ : IdxKey) = KeyExt.filename (⟨7, 2, 0⟩ : IdxKey) :=
  ⟨by decide, rfl⟩

end Kobzar
