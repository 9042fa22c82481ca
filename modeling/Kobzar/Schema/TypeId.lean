import Kobzar.Machine

/-!
# Identifiers of types

A type is named by a word whose three highest bits tell what kind of type it is: bit 63 marks an option, and the
two bits below it a built-in, a custom or a derived type. The predefined types are numbered in two lists, and all
of them have the built-in bit.
-/

namespace Kobzar

/-- `TypeId`: ID of a type in the database. -/
structure TypeId where
  id : U64
  deriving DecidableEq, Repr

namespace TypeId

/-- `INVALID`: the type ID of no type. -/
def invalid : TypeId := ⟨0⟩

/-- `OPTION_BIT`: optional type bit. -/
def optionBit : U64 := 1 <<< 63

/-- `BUILT_IN_BIT`: built-in type bit. -/
def builtInBit : U64 := 0b01 <<< 61

/-- `CUSTOM_BIT`: custom type bit, for user-defined types or plugins. -/
def customBit : U64 := 0b10 <<< 61

/-- `DERIVED_BIT`: derived type bit, for types that are derived from other types. -/
def derivedBit : U64 := 0b11 <<< 61

/-- `TYPE_KIND_MASK`: the bits that are used to identify the type kind. -/
def typeKindMask : U64 := 0b11 <<< 61

/-- `is_build_in`. -/
def isBuildIn (self : TypeId) : Bool := self.id &&& typeKindMask == builtInBit

/-- `is_custom`. -/
def isCustom (self : TypeId) : Bool := self.id &&& typeKindMask == customBit

/-- `is_derived`. -/
def isDerived (self : TypeId) : Bool := self.id &&& typeKindMask == derivedBit

/-- `is_option`. -/
def isOption (self : TypeId) : Bool := self.id &&& optionBit != 0

/-- `advance`: the next type ID, checked. -/
def advance (self : TypeId) : Outcome TypeId := do
  let next ← addU64 self.id 1
  return ⟨next⟩

end TypeId

/-! ## Predefined types -/

/-- The types that the source has constants for, in its order. -/
inductive TyConst where
  | bool | i8 | i16 | i32 | i64 | i128 | u8 | u16 | u32 | u64 | u128 | f32 | f64 | str | date | time |
    datetime | uuid | set | map
  | fk
  | vecU8 | vecU64 | vecU128 | vec | vecStr | vecUuid
  | fkU32 | fkU64 | fkU128 | fkStr | fkUuid | fkDate | fkTime | fkDatetime | fkVecU8
  | vecFkU64 | vecFkU128 | vecFkStr | vecFkUuid | vecFkDate | vecFkTime | vecFkDatetime | vecFkVecU8
  | setFkU64 | setFkU128 | setFkStr | setFkUuid | setFkDate | setFkTime | setFkDatetime | setFkVecU8
  deriving DecidableEq, Repr

namespace TyConst

/-- The constants of the first `ty_const!`, which starts at 1. -/
def builtIns : List TyConst :=
  [bool, i8, i16, i32, i64, i128, u8, u16, u32, u64, u128, f32, f64, str, date, time, datetime, uuid, set, map, fk]

/-- The constants of the second `ty_const!`, which starts at 1 with the derived bit. -/
def deriveds : List TyConst :=
  [vecU8, vecU64, vecU128, vec, vecStr, vecUuid, fkU32, fkU64, fkU128, fkStr, fkUuid, fkDate, fkTime, fkDatetime, fkVecU8,
    vecFkU64, vecFkU128, vecFkStr, vecFkUuid, vecFkDate, vecFkTime, vecFkDatetime, vecFkVecU8,
    setFkU64, setFkU128, setFkStr, setFkUuid, setFkDate, setFkTime, setFkDatetime, setFkVecU8]

/-- `$value`: the start of the list, and one more for each constant before. -/
def value (const : TyConst) : U64 :=
  if const ∈ builtIns then 1 + BitVec.ofNat 64 (builtIns.idxOf const)
  else (1 ||| TypeId.derivedBit) + BitVec.ofNat 64 (deriveds.idxOf const)

/-- `$name`: the constant of the type. -/
def name (const : TyConst) : TypeId := ⟨const.value ||| TypeId.builtInBit⟩

/-- `$opt_name`: the constant of its option. -/
def optName (const : TyConst) : TypeId := ⟨const.value ||| TypeId.builtInBit ||| TypeId.optionBit⟩

end TyConst

end Kobzar
