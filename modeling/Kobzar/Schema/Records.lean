import Kobzar.Library.CLayout
import Kobzar.Schema.Flags

/-!
# The records of the schema file

The records lie in the file as they lie in memory: `repr(C)`, on a machine that has the least significant byte of a
number first. Each is read back from its bytes, whatever its padding (`ofBytes_encode`).
-/

namespace Kobzar.Schema

open CLayout

/-- `Field`: the type, the place of its name and comment, and the functions of a field. -/
structure Field where
  typeId : U64
  nameOffset : U64
  commentOffset : U64
  schemaVersion : U32
  nameLen : U16
  inlineSize : U32
  flags : FieldFlags
  validation : U32
  triggerBeforeInsert : U32
  triggerAfterInsert : U32
  triggerBeforeUpdate : U32
  triggerAfterUpdate : U32
  triggerBeforeDelete : U32
  triggerAfterDelete : U32
  defaultValueOffset : U64
  deriving DecidableEq, Repr

/-- `RecordHeader`: the header of each record in the schema file. -/
structure RecordHeader where
  commentOffset : U64
  adtVariantCount : U32
  tablespaceId : U32
  deriving DecidableEq, Repr

/-- `AdtVariant`: the name, the fields and the comment of a variant. -/
structure AdtVariant where
  nameOffset : U64
  firstFieldOffset : U64
  commentOffset : U64
  nameLen : U16
  fieldCount : U16
  deriving DecidableEq, Repr

/-- `FieldCount`: the number of fields with type information. -/
structure FieldCount where
  fieldCount : U16
  deriving DecidableEq, Repr

/-- A number of a record. -/
def number (widths : List Nat) (bytes : List U8) (i : Nat) : Nat := (decode widths bytes).getD i 0

/-- The numbers of a record are read back. -/
theorem number_encode (pad : Nat → U8) {widths values : List Nat} (h : NumbersFit widths values) (i : Nat) :
    number widths (encodeNumbers pad widths values) i = values.getD i 0 := by
  rw [number, decode_encode pad h]

/-- A word is a number of its width. -/
theorem word_fits {n : Nat} (x : BitVec (8 * (n + 1))) : 0 < n + 1 ∧ x.toNat < 256 ^ (n + 1) := by
  have hlt := x.isLt
  rw [Nat.pow_mul] at hlt
  exact ⟨Nat.succ_pos n, hlt⟩

namespace Field

/-- The widths of the numbers of a field. -/
def widths : List Nat := [8, 8, 8, 4, 2, 4, 4, 4, 4, 4, 4, 4, 4, 4, 8]

/-- The numbers of a field. -/
def numbers (field : Field) : List Nat :=
  [field.typeId.toNat, field.nameOffset.toNat, field.commentOffset.toNat, field.schemaVersion.toNat, field.nameLen.toNat,
    field.inlineSize.toNat, field.flags.bits.toNat, field.validation.toNat, field.triggerBeforeInsert.toNat,
    field.triggerAfterInsert.toNat, field.triggerBeforeUpdate.toNat, field.triggerAfterUpdate.toNat,
    field.triggerBeforeDelete.toNat, field.triggerAfterDelete.toNat, field.defaultValueOffset.toNat]

/-- The bytes of a field taken for a field: `transmute`. -/
def ofBytes (bytes : List U8) : Field where
  typeId := BitVec.ofNat 64 (number widths bytes 0)
  nameOffset := BitVec.ofNat 64 (number widths bytes 1)
  commentOffset := BitVec.ofNat 64 (number widths bytes 2)
  schemaVersion := BitVec.ofNat 32 (number widths bytes 3)
  nameLen := BitVec.ofNat 16 (number widths bytes 4)
  inlineSize := BitVec.ofNat 32 (number widths bytes 5)
  flags := ⟨BitVec.ofNat 32 (number widths bytes 6)⟩
  validation := BitVec.ofNat 32 (number widths bytes 7)
  triggerBeforeInsert := BitVec.ofNat 32 (number widths bytes 8)
  triggerAfterInsert := BitVec.ofNat 32 (number widths bytes 9)
  triggerBeforeUpdate := BitVec.ofNat 32 (number widths bytes 10)
  triggerAfterUpdate := BitVec.ofNat 32 (number widths bytes 11)
  triggerBeforeDelete := BitVec.ofNat 32 (number widths bytes 12)
  triggerAfterDelete := BitVec.ofNat 32 (number widths bytes 13)
  defaultValueOffset := BitVec.ofNat 64 (number widths bytes 14)

theorem fits (field : Field) : NumbersFit widths field.numbers := by
  repeat first | exact .nil | refine .cons (word_fits _) ?_

theorem ofBytes_encode (pad : Nat → U8) (field : Field) : ofBytes (encodeNumbers pad widths field.numbers) = field := by
  simp only [ofBytes, number_encode pad field.fits]
  simp [numbers]

end Field

namespace RecordHeader

/-- The widths of the numbers of a header. -/
def widths : List Nat := [8, 4, 4]

/-- The numbers of a header. -/
def numbers (header : RecordHeader) : List Nat :=
  [header.commentOffset.toNat, header.adtVariantCount.toNat, header.tablespaceId.toNat]

/-- The bytes of a header taken for a header: `transmute`. -/
def ofBytes (bytes : List U8) : RecordHeader where
  commentOffset := BitVec.ofNat 64 (number widths bytes 0)
  adtVariantCount := BitVec.ofNat 32 (number widths bytes 1)
  tablespaceId := BitVec.ofNat 32 (number widths bytes 2)

theorem fits (header : RecordHeader) : NumbersFit widths header.numbers := by
  repeat first | exact .nil | refine .cons (word_fits _) ?_

theorem ofBytes_encode (pad : Nat → U8) (header : RecordHeader) :
    ofBytes (encodeNumbers pad widths header.numbers) = header := by
  simp only [ofBytes, number_encode pad header.fits]
  simp [numbers]

end RecordHeader

namespace AdtVariant

/-- The widths of the numbers of a variant. -/
def widths : List Nat := [8, 8, 8, 2, 2]

/-- The numbers of a variant. -/
def numbers (variant : AdtVariant) : List Nat :=
  [variant.nameOffset.toNat, variant.firstFieldOffset.toNat, variant.commentOffset.toNat, variant.nameLen.toNat,
    variant.fieldCount.toNat]

/-- The bytes of a variant taken for a variant: `transmute`. -/
def ofBytes (bytes : List U8) : AdtVariant where
  nameOffset := BitVec.ofNat 64 (number widths bytes 0)
  firstFieldOffset := BitVec.ofNat 64 (number widths bytes 1)
  commentOffset := BitVec.ofNat 64 (number widths bytes 2)
  nameLen := BitVec.ofNat 16 (number widths bytes 3)
  fieldCount := BitVec.ofNat 16 (number widths bytes 4)

theorem fits (variant : AdtVariant) : NumbersFit widths variant.numbers := by
  repeat first | exact .nil | refine .cons (word_fits _) ?_

theorem ofBytes_encode (pad : Nat → U8) (variant : AdtVariant) :
    ofBytes (encodeNumbers pad widths variant.numbers) = variant := by
  simp only [ofBytes, number_encode pad variant.fits]
  simp [numbers]

end AdtVariant

namespace FieldCount

/-- The widths of the numbers of a field count. -/
def widths : List Nat := [2]

/-- The numbers of a field count. -/
def numbers (count : FieldCount) : List Nat := [count.fieldCount.toNat]

/-- The bytes of a field count taken for a field count: `transmute`. -/
def ofBytes (bytes : List U8) : FieldCount where
  fieldCount := BitVec.ofNat 16 (number widths bytes 0)

theorem fits (count : FieldCount) : NumbersFit widths count.numbers := by
  repeat first | exact .nil | refine .cons (word_fits _) ?_

theorem ofBytes_encode (pad : Nat → U8) (count : FieldCount) :
    ofBytes (encodeNumbers pad widths count.numbers) = count := by
  simp only [ofBytes, number_encode pad count.fits]
  simp [numbers]

end FieldCount

/-- The sizes of the records. -/
example : [Field.widths, RecordHeader.widths, AdtVariant.widths, FieldCount.widths].map numbersSize =
    [80, 16, 32, 2] := by
  decide

end Kobzar.Schema
