import Kobzar.Library.Bits
import Kobzar.Schema.Layout
import Kobzar.Schema.TypeId

/-!
# Physical representations of types

How a value of a type is stored is read from a table, whose arms come in pairs: one for some types, and one for
their options, which need one more bit. Only IDs of the built-in kind get as far as the table. The constants of
derived types have the bits of another kind, so where the arms name them, foreign keys, vectors and sets, they are
cut off (`reprCovers_iff`).
-/

namespace Kobzar

open Bits

/-- `InnerTypeRepr`: how a value is stored, in the record or as a BLOB apart from it. -/
inductive InnerTypeRepr where
  | normal (bytes : DataSize) (bits : U8)
  | blobPtr (inlineSize : DataSize) (bits : U8) (eqHash : Bool)
  deriving DecidableEq, Repr

/-- `NonPrimitiveTypeError`, with the type ID that it names. -/
structure NonPrimitiveTypeError where
  typeId : TypeId
  deriving DecidableEq, Repr

namespace InnerTypeRepr

open TyConst in
/-- The arms of the match, apart from the wildcard. -/
def arms : List (List TypeId × InnerTypeRepr) :=
  [([bool.name], .normal ⟨0⟩ 1),
    ([bool.optName], .normal ⟨0⟩ 2),
    ([i8.name, u8.name], .normal ⟨1⟩ 0),
    ([i8.optName, u8.optName], .normal ⟨1⟩ 1),
    ([i16.name, u16.name], .normal ⟨2⟩ 0),
    ([i16.optName, u16.optName], .normal ⟨2⟩ 1),
    ([i32.name, u32.name, fkU32.name, f32.name], .normal ⟨4⟩ 0),
    ([i32.optName, u32.optName, fkU32.optName, f32.optName], .normal ⟨4⟩ 1),
    ([i64.name, u64.name, fkU64.name, f64.name], .normal ⟨8⟩ 0),
    ([i64.optName, u64.optName, fkU64.optName, f64.optName], .normal ⟨8⟩ 1),
    ([i128.name, u128.name, fkU128.name, uuid.name, fkUuid.name], .normal ⟨16⟩ 0),
    ([i128.optName, u128.optName, fkU128.optName, uuid.optName, fkUuid.optName], .normal ⟨16⟩ 1),
    ([str.name, vec.name, set.name, map.name, fkStr.name, fkVecU8.name, vecFkU64.name, vecFkU128.name, vecFkStr.name,
        vecFkUuid.name, vecFkDate.name, vecFkTime.name, vecFkDatetime.name, vecFkVecU8.name, setFkU64.name,
        setFkU128.name, setFkStr.name, setFkUuid.name, setFkDate.name, setFkDatetime.name, setFkTime.name, setFkVecU8.name],
      .blobPtr ⟨0⟩ 0 false),
    ([str.optName, vec.optName, set.optName, map.optName, fkStr.optName, fkVecU8.optName, vecFkU64.optName,
        vecFkU128.optName, vecFkStr.optName, vecFkUuid.optName, vecFkDate.optName, vecFkTime.optName,
        vecFkDatetime.optName, vecFkVecU8.optName, setFkU64.optName, setFkU128.optName, setFkStr.optName,
        setFkUuid.optName, setFkDate.optName, setFkDatetime.optName, setFkTime.optName, setFkVecU8.optName],
      .blobPtr ⟨0⟩ 1 false)]

/-- `TryFrom<TypeId>`: the first arm that names a type of the built-in kind. -/
def tryFrom (typeId : TypeId) : Except NonPrimitiveTypeError InnerTypeRepr :=
  if !typeId.isBuildIn then .error ⟨typeId⟩
  else
    match arms.find? fun arm => typeId ∈ arm.1 with
    | some arm => .ok arm.2
    | none => .error ⟨typeId⟩

/-- The same representation with one more bit. -/
def oneMoreBit : InnerTypeRepr → InnerTypeRepr
  | normal bytes bits => normal bytes (bits + 1)
  | blobPtr inlineSize bits eqHash => blobPtr inlineSize (bits + 1) eqHash

end InnerTypeRepr

open InnerTypeRepr

namespace TypeId

/-- The ID with the option bit set. -/
def asOption (id : TypeId) : TypeId := ⟨id.id ||| optionBit⟩

/-- Some arm other than the wildcard names the ID. -/
def NamedByArm (id : TypeId) : Prop := ∃ arm ∈ arms, id ∈ arm.1

/-- The table covers an ID: the ID has a representation exactly when an arm names it, and an ID without the option
bit has one exactly when it has one with the bit, which is the same with one more bit. -/
structure ReprCovers (id : TypeId) : Prop where
  covers : (∃ repr, tryFrom id = .ok repr) ↔ id.NamedByArm
  option : id.isOption = false → ((∃ repr, tryFrom id = .ok repr) ↔ ∃ repr, tryFrom id.asOption = .ok repr)
  oneMoreBit : id.isOption = false → ∀ repr optRepr, tryFrom id = .ok repr → tryFrom id.asOption = .ok optRepr →
    optRepr = repr.oneMoreBit

/-! ## The option bit -/

@[simp] theorem isOption_asOption (id : TypeId) : id.asOption.isOption = true := by
  rw [isOption, bne_iff_ne]
  intro hzero
  have hbit : optionBit[63] = true := by decide
  have hlost := congrArg (fun word : U64 => word.getLsbD 63) hzero
  simp [asOption, hbit] at hlost

/-- The option bit does not change the kind. -/
@[simp] theorem isBuildIn_asOption (id : TypeId) : id.asOption.isBuildIn = id.isBuildIn := by
  have hkind : optionBit &&& typeKindMask = 0#64 := by decide
  simp [isBuildIn, asOption, BitVec.and_or_distrib_right, hkind]

/-- IDs without the option bit are the same when their options are. -/
theorem asOption_inj {id id' : TypeId} (h : id.isOption = false) (h' : id'.isOption = false) :
    id.asOption = id'.asOption ↔ id = id' := by
  refine ⟨fun heq => ?_, congrArg asOption⟩
  have hbit : id.id &&& optionBit = 0#64 := by simpa [isOption] using h
  have hbit' : id'.id &&& optionBit = 0#64 := by simpa [isOption] using h'
  have hword : id.id ||| optionBit = id'.id ||| optionBit := congrArg TypeId.id heq
  exact congrArg TypeId.mk (eq_of_or_eq_or hbit hbit' hword)

end TypeId

namespace TyConst

/-- The constant of an option is that of the type with the option bit. -/
@[simp] theorem asOption_name (const : TyConst) : const.name.asOption = const.optName := rfl

@[simp] theorem isOption_name (const : TyConst) : const.name.isOption = false := by
  cases const <;> decide

/-- The constants of the first list are of the built-in kind, and those of the second are not. -/
theorem isBuildIn_name (const : TyConst) : const.name.isBuildIn = decide (const ∉ deriveds) := by
  cases const <;> decide

end TyConst

/-! ## The rows of the table -/

namespace InnerTypeRepr

open TyConst in
/-- The table by pairs of arms: types, and how a value of each is stored. -/
def rows : List (List TyConst × InnerTypeRepr) :=
  [([bool], .normal ⟨0⟩ 1),
    ([i8, u8], .normal ⟨1⟩ 0),
    ([i16, u16], .normal ⟨2⟩ 0),
    ([i32, u32, fkU32, f32], .normal ⟨4⟩ 0),
    ([i64, u64, fkU64, f64], .normal ⟨8⟩ 0),
    ([i128, u128, fkU128, uuid, fkUuid], .normal ⟨16⟩ 0),
    ([str, vec, set, map, fkStr, fkVecU8, vecFkU64, vecFkU128, vecFkStr, vecFkUuid, vecFkDate, vecFkTime, vecFkDatetime,
        vecFkVecU8, setFkU64, setFkU128, setFkStr, setFkUuid, setFkDate, setFkDatetime, setFkTime, setFkVecU8],
      .blobPtr ⟨0⟩ 0 false)]

/-- The arms of a row: one for the types, and one for their options. -/
def rowArms (row : List TyConst × InnerTypeRepr) : List (List TypeId × InnerTypeRepr) :=
  [(row.1.map TyConst.name, row.2), (row.1.map TyConst.optName, row.2.oneMoreBit)]

/-- The arms come in pairs. -/
theorem arms_eq : arms = rows.flatMap rowArms := rfl

/-- The representation that the first arm naming an ID gives. -/
def lookup (table : List (List TypeId × InnerTypeRepr)) (id : TypeId) : Option InnerTypeRepr :=
  (table.find? fun arm => id ∈ arm.1).map Prod.snd

/-- The option of a type is named by the options of the same row, and stored the same way with one more bit. -/
theorem lookup_asOption (table : List (List TyConst × InnerTypeRepr)) {id : TypeId} (h : id.isOption = false) :
    lookup (table.flatMap rowArms) id.asOption = (lookup (table.flatMap rowArms) id).map oneMoreBit := by
  induction table with
  | nil => rfl
  | cons row table ih =>
    have hname : id.asOption ∉ row.1.map TyConst.name := by
      intro hmem
      obtain ⟨const, -, hconst⟩ := List.mem_map.mp hmem
      have hoption := congrArg TypeId.isOption hconst
      simp at hoption
    have hoptName : id ∉ row.1.map TyConst.optName := by
      intro hmem
      obtain ⟨const, -, hconst⟩ := List.mem_map.mp hmem
      have hoption := congrArg TypeId.isOption hconst
      rw [← TyConst.asOption_name, TypeId.isOption_asOption, h] at hoption
      cases hoption
    have hiff : id.asOption ∈ row.1.map TyConst.optName ↔ id ∈ row.1.map TyConst.name := by
      simp only [List.mem_map, ← TyConst.asOption_name, TypeId.asOption_inj (TyConst.isOption_name _) h]
    simp only [lookup, List.flatMap_cons, rowArms, List.cons_append, List.nil_append, List.find?_cons, hname, hoptName,
      hiff] at ih ⊢
    by_cases hmem : id ∈ row.1.map TyConst.name
    · simp [hmem]
    · simpa [hmem] using ih

/-- What has a representation, and which. -/
theorem tryFrom_eq_ok_iff (id : TypeId) (repr : InnerTypeRepr) :
    tryFrom id = .ok repr ↔ id.isBuildIn = true ∧ lookup arms id = some repr := by
  unfold tryFrom lookup
  cases id.isBuildIn
  · simp
  · cases arms.find? fun arm => id ∈ arm.1 <;> simp

/-- An arm names an ID exactly when looking it up gives a representation. -/
theorem namedByArm_iff (id : TypeId) : id.NamedByArm ↔ ∃ repr, lookup arms id = some repr := by
  rw [← Option.isSome_iff_exists, lookup, Option.isSome_map, List.find?_isSome]
  simp [TypeId.NamedByArm]

end InnerTypeRepr

/-! ## The kinds that the arms name -/

/-- A constant, with the option bit or without, is of the built-in kind unless it is in the second list. -/
theorem TyConst.isBuildIn_eq {id : TypeId} {const : TyConst} (h : id = const.name ∨ id = const.optName) :
    id.isBuildIn = decide (const ∉ deriveds) := by
  rcases h with rfl | rfl
  · exact const.isBuildIn_name
  · rw [← asOption_name, TypeId.isBuildIn_asOption, isBuildIn_name]

/-- The arms name the constants of the rows, with the option bit and without. -/
theorem namedByArm_iff_const (id : TypeId) :
    id.NamedByArm ↔ ∃ const ∈ rows.flatMap Prod.fst, id = const.name ∨ id = const.optName := by
  simp only [TypeId.NamedByArm, arms_eq, List.mem_flatMap]
  constructor
  · rintro ⟨arm, ⟨row, hrow, harm⟩, hid⟩
    simp only [rowArms, List.mem_cons, List.not_mem_nil, or_false] at harm
    rcases harm with rfl | rfl
    · obtain ⟨const, hconst, rfl⟩ := List.mem_map.mp hid
      exact ⟨const, ⟨row, hrow, hconst⟩, Or.inl rfl⟩
    · obtain ⟨const, hconst, rfl⟩ := List.mem_map.mp hid
      exact ⟨const, ⟨row, hrow, hconst⟩, Or.inr rfl⟩
  · rintro ⟨const, ⟨row, hrow, hconst⟩, rfl | rfl⟩
    · exact ⟨_, ⟨row, hrow, List.mem_cons_self⟩, List.mem_map_of_mem hconst⟩
    · exact ⟨_, ⟨row, hrow, List.mem_cons_of_mem _ List.mem_cons_self⟩, List.mem_map_of_mem hconst⟩

open TyConst in
/-- The constants of derived types that the arms name. -/
def cutOff : List TyConst :=
  [fkU32, fkU64, fkU128, fkUuid, vec, fkStr, fkVecU8,
    vecFkU64, vecFkU128, vecFkStr, vecFkUuid, vecFkDate, vecFkTime, vecFkDatetime, vecFkVecU8,
    setFkU64, setFkU128, setFkStr, setFkUuid, setFkDate, setFkDatetime, setFkTime, setFkVecU8]

/-- The ID is one of these constants, with the option bit or without. -/
def TypeId.CutOff (id : TypeId) : Prop := ∃ const ∈ cutOff, id = const.name ∨ id = const.optName

/-- These are the constants that are both in a row and in the second list. -/
theorem mem_cutOff_iff (const : TyConst) :
    const ∈ cutOff ↔ const ∈ rows.flatMap Prod.fst ∧ const ∈ TyConst.deriveds := by
  cases const <;> decide

/-- What is cut off is what the arms name and is not of the built-in kind. -/
theorem TypeId.cutOff_iff (id : TypeId) : id.CutOff ↔ id.NamedByArm ∧ id.isBuildIn = false := by
  rw [namedByArm_iff_const]
  constructor
  · rintro ⟨const, hmem, hid⟩
    obtain ⟨hrow, hderived⟩ := (mem_cutOff_iff const).mp hmem
    refine ⟨⟨const, hrow, hid⟩, ?_⟩
    simp [TyConst.isBuildIn_eq hid, hderived]
  · rintro ⟨⟨const, hrow, hid⟩, hkind⟩
    have hderived : const ∈ TyConst.deriveds := by simpa [TyConst.isBuildIn_eq hid] using hkind
    exact ⟨const, (mem_cutOff_iff const).mpr ⟨hrow, hderived⟩, hid⟩

/-- What has a representation: an ID of the built-in kind that an arm names. -/
theorem exists_tryFrom_iff (id : TypeId) : (∃ repr, tryFrom id = .ok repr) ↔
    id.isBuildIn = true ∧ id.NamedByArm := by
  simp only [tryFrom_eq_ok_iff, namedByArm_iff, exists_and_left]

/-- The option of a type has the representation of the type with one more bit, and none otherwise. -/
theorem tryFrom_asOption_iff {id : TypeId} (h : id.isOption = false) (optRepr : InnerTypeRepr) :
    tryFrom id.asOption = .ok optRepr ↔ ∃ repr, tryFrom id = .ok repr ∧ optRepr = repr.oneMoreBit := by
  simp only [tryFrom_eq_ok_iff, TypeId.isBuildIn_asOption, arms_eq, lookup_asOption rows h, Option.map_eq_some_iff]
  constructor
  · rintro ⟨hkind, repr, hrepr, rfl⟩
    exact ⟨repr, ⟨hkind, hrepr⟩, rfl⟩
  · rintro ⟨repr, ⟨hkind, hrepr⟩, rfl⟩
    exact ⟨hkind, repr, hrepr, rfl⟩

/-- When the table covers what it names. An ID has the representation that its arm says, and its option the same
with one more bit, exactly when it is none of the constants of derived types that an arm names, with the option bit
or without: these have no representation. -/
theorem reprCovers_iff (id : TypeId) : id.ReprCovers ↔ ¬id.CutOff := by
  rw [id.cutOff_iff]
  constructor
  · rintro hcovers ⟨hnamed, hkind⟩
    obtain ⟨hbuiltIn, -⟩ := (exists_tryFrom_iff id).mp (hcovers.covers.mpr hnamed)
    rw [hkind] at hbuiltIn
    cases hbuiltIn
  · intro hnot
    refine { covers := ?_, option := fun hid => ?_, oneMoreBit := fun hid repr optRepr hrepr hoptRepr => ?_ }
    · rw [exists_tryFrom_iff]
      refine ⟨fun h => h.2, fun hnamed => ⟨?_, hnamed⟩⟩
      exact Bool.eq_true_of_not_eq_false fun hkind => hnot ⟨hnamed, hkind⟩
    · simp only [tryFrom_asOption_iff hid]
      constructor
      · rintro ⟨repr, hrepr⟩
        exact ⟨_, repr, hrepr, rfl⟩
      · rintro ⟨_, repr, hrepr, -⟩
        exact ⟨repr, hrepr⟩
    · obtain ⟨found, hfound, rfl⟩ := (tryFrom_asOption_iff hid optRepr).mp hoptRepr
      rw [hrepr] at hfound
      cases hfound
      rfl

/-- A foreign key to a word of 64 bits is named by the arm of words of 64 bits, but has no representation. -/
theorem fk_u64_is_cut_off : TyConst.fkU64.name.NamedByArm ∧
    tryFrom TyConst.fkU64.name = .error ⟨TyConst.fkU64.name⟩ ∧ ¬TyConst.fkU64.name.ReprCovers := by
  have hnamed : TyConst.fkU64.name.NamedByArm :=
    ⟨([TyConst.i64.name, TyConst.u64.name, TyConst.fkU64.name, TyConst.f64.name],
      .normal ⟨8⟩ 0), by simp [arms], by simp⟩
  have herror : tryFrom TyConst.fkU64.name = .error ⟨TyConst.fkU64.name⟩ := by
    simp [tryFrom, TyConst.isBuildIn_name, TyConst.deriveds]
  refine ⟨hnamed, herror, fun hcovers => ?_⟩
  obtain ⟨repr, hrepr⟩ := hcovers.covers.mpr hnamed
  rw [herror] at hrepr
  cases hrepr

end Kobzar
