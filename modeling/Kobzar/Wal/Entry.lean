import Kobzar.Library.Bytes
import Kobzar.Machine

/-!
# Entries of the write-ahead log

The operations that the log records, their kind codes, and the byte strings that the encoder hands to its writer,
one after the other, in the order of the source.
-/

namespace Kobzar

open Bytes

/-- A string slice. No object is larger than half the address space. -/
structure Str where
  text : String
  size_lt : text.utf8ByteSize < 2 ^ 63
  deriving DecidableEq

/-- A slice. No object is larger than half the address space. -/
structure Slice (α : Type) where
  items : List α
  length_lt : items.length < 2 ^ 63
  deriving DecidableEq

/-- The UTF-8 bytes of a string slice. -/
def Str.asBytes (s : Str) : List U8 := s.text.toByteArray.data.toList.map UInt8.toBitVec

/-- `x.to_le_bytes()` of a `u64`. -/
def le64 (x : U64) : List U8 := toLe 8 x.toNat

/-- `x.to_le_bytes()` of a `u8`. -/
def le8 (x : U8) : List U8 := [x]

/-- `b as u8`. -/
def boolU8 (b : Bool) : U8 := if b then 1 else 0

/-- Kind of a table. -/
inductive TableKind where
  | schemafull
  | schemafullAdt
  | schemaless
  | schemafullSchemaless
  | schemafullAdtSchemaless
  deriving DecidableEq, Repr

/-- How records of a table are stored. -/
inductive TableStoreBehavior where
  | directlyStorable
  | fieldOnly
  | singleton
  deriving DecidableEq, Repr

/-- When a trigger is executed. -/
inductive TriggerExecKind where
  | beforeInsert
  | beforeUpdate
  | beforeDelete
  | afterInsert
  | afterUpdate
  | afterDelete
  deriving DecidableEq, Repr

/-- A field of an ordered index. -/
structure OrderIndexFieldCfg where
  fieldIdx : U64
  isAscending : Bool
  noneIsFirst : Bool
  deriving DecidableEq, Repr

/-- An operation that the log records. -/
inductive WalEntry where
  | insert (storage record : U64) (data : Slice U8)
  | update (storage oldRecord newRecord : U64) (data : Slice U8)
  | delete (storage record : U64)
  | commit
  | rollback
  | createTable (typeId : U64) (kind : TableKind) (storeBehavior : TableStoreBehavior) (name : Str)
  | dropTable (typeId : U64)
  | commentTable (typeId : U64) (comment : Str)
  | renameTable (typeId : U64) (newName : Str)
  | createTableValidation (typeId : U64) (name code : Str)
  | commentTableValidation (typeId validationId : U64) (comment : Str)
  | dropTableValidation (typeId validationId : U64)
  | renameTableValidation (typeId validationId : U64) (newName : Str)
  | createAdtVariant (typeId : U64) (name : Str)
  | commentAdtVariant (typeId variantId : U64) (comment : Str)
  | renameAdtVariant (typeId variantId : U64) (newName : Str)
  | dropAdtVariant (typeId variantId : U64)
  | bindSchemalessField (typeId fieldType : U64) (fieldName : Str)
  | unbindSchemalessField (typeId fieldType : U64) (fieldName : Str)
  | createTableTrigger (typeId : U64) (kind : TriggerExecKind) (code : Str)
  | dropTableTrigger (typeId : U64) (kind : TriggerExecKind)
  | createFieldTriggerQuery (typeId variantId fieldId : U64) (kind : TriggerExecKind) (code : Str)
  | dropFieldTrigger (typeId variantId fieldId : U64) (kind : TriggerExecKind)
  | createField (typeId variantId fieldType : U64) (fieldName : Str)
  | setFieldDefault (typeId variantId fieldId : U64) (defaultValue : Slice U8)
  | setFieldComputed (typeId variantId fieldId : U64) (code : Str)
  | setFieldCheck (typeId variantId fieldId : U64) (code : Str)
  | setFieldTransform (typeId variantId fieldId : U64) (code : Str)
  | commentField (typeId variantId fieldId : U64) (comment : Str)
  | renameField (typeId variantId fieldId : U64) (newName : Str)
  | dropField (typeId variantId fieldId : U64)
  | createIndexUnique (typeId variantId : U64) (fields : Slice U64) (noneIsUnique : Bool) (name : Str)
  | createIndexOrder (typeId variantId : U64) (fields : Slice OrderIndexFieldCfg) (name : Str)
  | createIndexEqual (typeId variantId : U64) (fields : Slice U64) (name : Str)
  | commentIndex (typeId variantId indexId : U64) (comment : Str)
  | renameIndex (typeId variantId indexId : U64) (newName : Str)
  | dropIndex (typeId variantId indexId : U64)
  | createFn (selfArg returns : U64) (byRef : Bool) (name code : Str)
  | commentFn (selfArg : U64) (name comment : Str)
  | renameFn (selfArg : U64) (oldName newName : Str)
  | dropFn (selfArg : U64) (name : Str)

/-- The code of a table kind. -/
def TableKind.walCode : TableKind → U64
  | .schemafull => 0x01
  | .schemafullAdt => 0x02
  | .schemaless => 0x03
  | .schemafullSchemaless => 0x04
  | .schemafullAdtSchemaless => 0x05

/-- The code of a store behaviour. -/
def TableStoreBehavior.walCode : TableStoreBehavior → U64
  | .directlyStorable => 0x01
  | .fieldOnly => 0x02
  | .singleton => 0x03

/-- The code of a trigger kind. -/
def TriggerExecKind.walCode : TriggerExecKind → U64
  | .beforeInsert => 0x01
  | .beforeUpdate => 0x02
  | .beforeDelete => 0x03
  | .afterInsert => 0x04
  | .afterUpdate => 0x05
  | .afterDelete => 0x06

namespace WalEntry

/-- The kind code of an entry. -/
def walCode : WalEntry → U64
  | insert .. => 0x01
  | update .. => 0x02
  | delete .. => 0x03
  | commit => 0x05
  | rollback => 0x06
  | createTable .. => 0x07
  | dropTable .. => 0x08
  | commentTable .. => 0x09
  | renameTable .. => 0x0A
  | createTableValidation .. => 0x0B
  | commentTableValidation .. => 0x0C
  | dropTableValidation .. => 0x0D
  | renameTableValidation .. => 0x0E
  | createAdtVariant .. => 0x0F
  | commentAdtVariant .. => 0x10
  | renameAdtVariant .. => 0x11
  | dropAdtVariant .. => 0x12
  | bindSchemalessField .. => 0x13
  | unbindSchemalessField .. => 0x14
  | createTableTrigger .. => 0x15
  | dropTableTrigger .. => 0x16
  | createFieldTriggerQuery .. => 0x17
  | dropFieldTrigger .. => 0x18
  | createField .. => 0x19
  | setFieldDefault .. => 0x1A
  | setFieldComputed .. => 0x1B
  | setFieldCheck .. => 0x1C
  | setFieldTransform .. => 0x1D
  | commentField .. => 0x1E
  | renameField .. => 0x1F
  | dropField .. => 0x20
  | createIndexUnique .. => 0x21
  | createIndexOrder .. => 0x22
  | createIndexEqual .. => 0x23
  | commentIndex .. => 0x24
  | renameIndex .. => 0x25
  | dropIndex .. => 0x26
  | createFn .. => 0x27
  | commentFn .. => 0x28
  | renameFn .. => 0x29
  | dropFn .. => 0x2A

/-- `len as u64` of a string slice, as bytes. -/
def lenBytes (s : Str) : List U8 := le64 (BitVec.ofNat 64 s.asBytes.length)

/-- `len as u64` of a slice, as bytes. -/
def countBytes {α : Type} (xs : Slice α) : List U8 := le64 (BitVec.ofNat 64 xs.items.length)

/-- The flag byte of a field of an ordered index. -/
def orderFlags (field : OrderIndexFieldCfg) : U8 := boolU8 field.isAscending ||| (boolU8 field.noneIsFirst <<< 1)

/-- The byte strings that the encoder writes for an entry, in order. -/
def payloadWrites : WalEntry → List (List U8)
  | insert storage record data => [le64 storage, le64 record, data.items]
  | update storage oldRecord newRecord data => [le64 storage, le64 oldRecord, le64 newRecord, data.items]
  | delete storage record => [le64 storage, le64 record]
  | commit => []
  | rollback => []
  | createTable typeId kind storeBehavior name =>
    [le64 typeId, le64 kind.walCode, le64 storeBehavior.walCode, name.asBytes]
  | dropTable typeId => [le64 typeId]
  | commentTable typeId comment => [le64 typeId, comment.asBytes]
  | renameTable typeId newName => [le64 typeId, newName.asBytes]
  | createTableValidation typeId name code => [le64 typeId, lenBytes name, name.asBytes, code.asBytes]
  | commentTableValidation typeId validationId comment => [le64 typeId, le64 validationId, comment.asBytes]
  | dropTableValidation typeId validationId => [le64 typeId, le64 validationId]
  | renameTableValidation typeId validationId newName => [le64 typeId, le64 validationId, newName.asBytes]
  | createAdtVariant typeId name => [le64 typeId, name.asBytes]
  | commentAdtVariant typeId variantId comment => [le64 typeId, le64 variantId, comment.asBytes]
  | renameAdtVariant typeId variantId newName => [le64 typeId, le64 variantId, newName.asBytes]
  | dropAdtVariant typeId variantId => [le64 typeId, le64 variantId]
  | bindSchemalessField typeId fieldType fieldName => [le64 typeId, le64 fieldType, fieldName.asBytes]
  | unbindSchemalessField typeId fieldType fieldName => [le64 typeId, le64 fieldType, fieldName.asBytes]
  | createTableTrigger typeId kind code => [le64 typeId, le64 kind.walCode, code.asBytes]
  | dropTableTrigger typeId kind => [le64 typeId, le64 kind.walCode]
  | createFieldTriggerQuery typeId variantId fieldId kind code =>
    [le64 typeId, le64 variantId, le64 fieldId, le64 kind.walCode, code.asBytes]
  | dropFieldTrigger typeId variantId fieldId kind => [le64 typeId, le64 variantId, le64 fieldId, le64 kind.walCode]
  | createField typeId variantId fieldType fieldName =>
    [le64 typeId, le64 variantId, le64 fieldType, fieldName.asBytes]
  | setFieldDefault typeId variantId fieldId defaultValue =>
    [le64 typeId, le64 variantId, le64 fieldId, defaultValue.items]
  | setFieldComputed typeId variantId fieldId code => [le64 typeId, le64 variantId, le64 fieldId, code.asBytes]
  | setFieldCheck typeId variantId fieldId code => [le64 typeId, le64 variantId, le64 fieldId, code.asBytes]
  | setFieldTransform typeId variantId fieldId code => [le64 typeId, le64 variantId, le64 fieldId, code.asBytes]
  | commentField typeId variantId fieldId comment => [le64 typeId, le64 variantId, le64 fieldId, comment.asBytes]
  | renameField typeId variantId fieldId newName => [le64 typeId, le64 variantId, le64 fieldId, newName.asBytes]
  | dropField typeId variantId fieldId => [le64 typeId, le64 variantId, le64 fieldId]
  | createIndexUnique typeId variantId fields noneIsUnique name =>
    [le64 typeId, le64 variantId, countBytes fields] ++ fields.items.map le64 ++ [le8 (boolU8 noneIsUnique), name.asBytes]
  | createIndexOrder typeId variantId fields name =>
    [le64 typeId, le64 variantId, countBytes fields] ++
      fields.items.flatMap (fun field => [le64 field.fieldIdx, le8 (orderFlags field)]) ++ [name.asBytes]
  | createIndexEqual typeId variantId fields name =>
    [le64 typeId, le64 variantId, countBytes fields] ++ fields.items.map le64 ++ [name.asBytes]
  | commentIndex typeId variantId indexId comment => [le64 typeId, le64 variantId, le64 indexId, comment.asBytes]
  | renameIndex typeId variantId indexId newName => [le64 typeId, le64 variantId, le64 indexId, newName.asBytes]
  | dropIndex typeId variantId indexId => [le64 typeId, le64 variantId, le64 indexId]
  | createFn selfArg returns byRef name code =>
    [le64 selfArg, le64 returns, le8 (boolU8 byRef), name.asBytes, code.asBytes]
  | commentFn selfArg name comment => [le64 selfArg, lenBytes name, name.asBytes, comment.asBytes]
  | renameFn selfArg oldName newName => [le64 selfArg, lenBytes oldName, oldName.asBytes, newName.asBytes]
  | dropFn selfArg name => [le64 selfArg, name.asBytes]

/-- The payload bytes of an entry. -/
def payload (entry : WalEntry) : List U8 := entry.payloadWrites.flatten

end WalEntry

end Kobzar
