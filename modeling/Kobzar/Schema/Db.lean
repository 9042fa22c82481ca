import Kobzar.Library.Bits
import Kobzar.Schema.Catalogue

/-!
# Where the IDs of new types come from

A database counts its type IDs up from `TypeId::INVALID`, and puts no flag into them. So the IDs of a run of less
than 2^61 calls are new each time and apart from those of the predefined types, but none of them is that of a
custom or a derived type (`ownSpace_of_run_iff`).
-/

namespace Kobzar

open Bits

/-- `Generation`: the generation of the schema. -/
structure Generation where
  number : U64
  deriving DecidableEq, Repr

/-- `TransactionIsolation`. -/
inductive TransactionIsolation where
  | readCommitted
  | guardedReadCommitted
  | pointOfTime
  deriving DecidableEq, Repr

/-- `TransactionLocal`: what a transaction keeps to itself. -/
structure TransactionLocal (Struct : Type) where
  isolation : TransactionIsolation
  types : Types Struct

/-- `Db`: the schema of a database, with its transactions. -/
structure Db (Struct : Type) where
  name : IdentPath
  lastTypeId : TypeId
  lastGeneration : Generation
  types : Types Struct
  activeTransactions : AList fun _ : Generation => TransactionLocal Struct
  transactionNesting : AList fun _ : Generation => Generation

namespace Db

variable {Struct : Type}

/-- `Db::new`. -/
def new (name : IdentPath) : Db Struct where
  name := name
  lastTypeId := .invalid
  lastGeneration := ⟨0⟩
  types := .empty
  activeTransactions := ∅
  transactionNesting := ∅

/-- `next_type_id`. -/
def nextTypeId (self : Db Struct) : Outcome (TypeId × Db Struct) := do
  let next ← self.lastTypeId.advance
  return (next, { self with lastTypeId := next })

/-- A number of calls of `next_type_id`, and what they return. -/
def nextTypeIds (self : Db Struct) : Nat → Outcome (List TypeId × Db Struct)
  | 0 => .ok ([], self)
  | n + 1 => do
    let (id, self) ← self.nextTypeId
    let (ids, self) ← self.nextTypeIds n
    return (id :: ids, self)

end Db

/-! ## The space of user types -/

/-- IDs that are new each time, and no others than those of types to come. -/
structure ApartIds (ids : List TypeId) : Prop where
  nodup : ids.Nodup
  ne_invalid : ∀ id ∈ ids, id ≠ .invalid
  ne_const : ∀ id ∈ ids, ∀ const : TyConst, id ≠ const.name ∧ id ≠ const.optName
  not_option : ∀ id ∈ ids, id.isOption = false
  not_builtIn : ∀ id ∈ ids, id.isBuildIn = false

/-- IDs in the space of user types: besides, each says of itself that it is one of a custom or of a derived type. -/
structure OwnSpace (ids : List TypeId) : Prop extends ApartIds ids where
  kind : ∀ id ∈ ids, id.isCustom = true ∨ id.isDerived = true

namespace TypeId

/-- An ID with no flag: it is below the lowest of them. -/
def Plain (id : TypeId) : Prop := id.id.toNat < 2 ^ 61

/-- An ID with no flag is of no kind. -/
theorem Plain.kind {id : TypeId} (h : id.Plain) :
    id.isBuildIn = false ∧ id.isCustom = false ∧ id.isDerived = false ∧ id.isOption = false := by
  have hkind : id.id &&& typeKindMask = 0#64 := and_shiftLeft_eq_zero h 0b11
  have hoption : id.id &&& optionBit = 0#64 := and_shiftLeft_eq_zero h 0b100
  rw [isBuildIn, isCustom, isDerived, isOption, hkind, hoption]
  decide

/-- An ID that has the built-in bit has a flag. -/
theorem not_plain_of_builtInBit {id : TypeId} (h : id.id.getLsbD 61 = true) : ¬id.Plain := by
  intro hplain
  have hbits : id.id &&& builtInBit = 0#64 := and_shiftLeft_eq_zero hplain 0b01
  have hbit := congrArg (fun word : U64 => word.getLsbD 61) hbits
  rw [BitVec.getLsbD_and, h] at hbit
  exact absurd hbit (by decide)

end TypeId

/-- The predefined types have a flag. -/
theorem TyConst.not_plain (const : TyConst) : ¬const.name.Plain ∧ ¬const.optName.Plain := by
  have hbit : TypeId.builtInBit.getLsbD 61 = true := by decide
  constructor
  · refine TypeId.not_plain_of_builtInBit ?_
    rw [name, BitVec.getLsbD_or, hbit, Bool.or_true]
  · refine TypeId.not_plain_of_builtInBit ?_
    rw [optName, BitVec.getLsbD_or, BitVec.getLsbD_or, hbit, Bool.or_true, Bool.true_or]

/-! ## Runs -/

namespace Db

variable {Struct : Type}

/-- The next type ID is one more than the last. -/
theorem nextTypeId_spec (db : Db Struct) (h : db.lastTypeId.id.toNat + 1 < 2 ^ 64) :
    ∃ id, db.nextTypeId = .ok (id, { db with lastTypeId := id }) ∧ id.id.toNat = db.lastTypeId.id.toNat + 1 := by
  obtain ⟨next, hnext⟩ : ∃ next, addU64 db.lastTypeId.id 1 = .ok next := ⟨_, addU64_eq_ok_iff.mpr ⟨h, rfl⟩⟩
  refine ⟨⟨next⟩, ?_, addU64_ok hnext⟩
  rw [nextTypeId, TypeId.advance, hnext]
  rfl

/-- The IDs of a run are counted up from the last one. -/
theorem nextTypeIds_spec (db : Db Struct) (n : Nat) (h : db.lastTypeId.id.toNat + n < 2 ^ 64) :
    ∃ ids after, db.nextTypeIds n = .ok (ids, after) ∧
      ids.map (fun id => id.id.toNat) = List.range' (db.lastTypeId.id.toNat + 1) n := by
  induction n generalizing db with
  | zero => exact ⟨[], db, rfl, rfl⟩
  | succ n ih =>
    obtain ⟨id, hid, hnumber⟩ := db.nextTypeId_spec (by omega)
    obtain ⟨ids, after, hids, hnumbers⟩ := ih { db with lastTypeId := id } (by simp only [hnumber]; omega)
    refine ⟨id :: ids, after, ?_, ?_⟩
    · simp only [nextTypeIds, hid, ok_bind, hids]
      rfl
    · simp only [List.map_cons, hnumbers, hnumber, List.range'_succ]

end Db

/-- IDs counted up from one, below the flags, are apart from all others. -/
theorem apartIds_of_range {ids : List TypeId} {n : Nat} (h : ids.map (fun id => id.id.toNat) = List.range' 1 n)
    (hn : n < 2 ^ 61) : ApartIds ids ∧ ∀ id ∈ ids, id.Plain := by
  have hmem : ∀ id ∈ ids, 1 ≤ id.id.toNat ∧ id.id.toNat < 1 + n := by
    intro id hid
    have hrange : id.id.toNat ∈ List.range' 1 n := h ▸ List.mem_map_of_mem hid
    rwa [List.mem_range'_1] at hrange
  have hplain : ∀ id ∈ ids, id.Plain := fun id hid => by
    have := (hmem id hid).2
    rw [TypeId.Plain]
    omega
  refine ⟨⟨?_, ?_, ?_, fun id hid => (hplain id hid).kind.2.2.2, fun id hid => (hplain id hid).kind.1⟩, hplain⟩
  · exact List.Nodup.of_map (fun id : TypeId => id.id.toNat) (h ▸ List.nodup_range')
  · rintro id hid rfl
    exact absurd (hmem _ hid).1 (by decide)
  · intro id hid const
    obtain ⟨hname, hoptName⟩ := const.not_plain
    exact ⟨fun heq => hname (heq ▸ hplain id hid), fun heq => hoptName (heq ▸ hplain id hid)⟩

/-- Where the IDs of a run of less than 2^61 calls lie: they are apart from all others, but in the space of user
types only when there are none. -/
theorem ownSpace_of_run_iff {Struct : Type} (name : IdentPath) {n : Nat} (hn : n < 2 ^ 61) :
    ∃ ids after, (Db.new name : Db Struct).nextTypeIds n = .ok (ids, after) ∧ ids.length = n ∧ ApartIds ids ∧
      (OwnSpace ids ↔ n = 0) := by
  have hfirst : (Db.new name : Db Struct).lastTypeId.id.toNat = 0 := rfl
  have hfits : (Db.new name : Db Struct).lastTypeId.id.toNat + n < 2 ^ 64 := by omega
  obtain ⟨ids, after, hrun, hnumbers⟩ := (Db.new name : Db Struct).nextTypeIds_spec n hfits
  have hlen : ids.length = n := by
    have := congrArg List.length hnumbers
    rwa [List.length_map, List.length_range'] at this
  obtain ⟨hapart, hplain⟩ := apartIds_of_range hnumbers hn
  refine ⟨ids, after, hrun, hlen, hapart, fun hown => ?_, ?_⟩
  · by_contra hne
    obtain ⟨id, hid⟩ := List.exists_mem_of_length_pos (l := ids) (by omega)
    obtain ⟨-, hcustom, hderived, -⟩ := (hplain id hid).kind
    rcases hown.kind id hid with hkind | hkind
    · rw [hcustom] at hkind
      cases hkind
    · rw [hderived] at hkind
      cases hkind
  · rintro rfl
    rw [List.length_eq_zero_iff.mp hlen]
    exact { nodup := List.nodup_nil, ne_invalid := by simp, ne_const := by simp, not_option := by simp,
            not_builtIn := by simp, kind := by simp }

/-- The IDs of three calls. -/
theorem ownSpace_of_run_three : ∃ ids after, (Db.new ⟨"main"⟩ : Db String).nextTypeIds 3 = .ok (ids, after) ∧
    ids.length = 3 ∧ ApartIds ids ∧ (OwnSpace ids ↔ 3 = 0) :=
  ownSpace_of_run_iff ⟨"main"⟩ (by decide)

/-- The first ID of a database is neither that of a custom type nor that of a derived one. -/
theorem first_id_has_no_kind : ∃ id after, (Db.new ⟨"main"⟩ : Db String).nextTypeIds 1 = .ok ([id], after) ∧
    id.isCustom = false ∧ id.isDerived = false ∧ ¬OwnSpace [id] := by
  refine ⟨⟨1⟩, _, rfl, by decide, by decide, fun hown => ?_⟩
  exact absurd (hown.kind ⟨1⟩ List.mem_cons_self) (by decide)

end Kobzar
