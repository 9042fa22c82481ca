import Kobzar.Wal.Entry

/-!
# Reading entries back

A reader for every kind of entry, which replay could use: given the kind code and the payload it returns the entry
that was logged (`decode_payload`). There is one kind it cannot be written for. The payload of `createFn` runs the
name and the code together with no length between them, so it tells what they are joined, and no more
(`payload_createFn_inj`). Hence kind code and payload determine an entry exactly up to this (`payload_inj_iff`).
-/

namespace Kobzar

open Bytes

/-- A reader of bytes: what is read and the bytes that are left. -/
abbrev Reader (α : Type) : Type := StateT (List U8) Option α

namespace Reader

/-- The next bytes, as many as given. -/
def take (n : Nat) : Reader (List U8) :=
  fun bytes => if n ≤ bytes.length then some (bytes.take n, bytes.drop n) else none

/-- All bytes that are left. -/
def rest : Reader (List U8) := fun bytes => some (bytes, [])

/-- A `u64`. -/
def u64 : Reader U64 := do return BitVec.ofNat 64 (ofLe (← take 8))

/-- A `u8`. -/
def u8 : Reader U8
  | [] => none
  | b :: bytes => some (b, bytes)

/-- The slice of the given items. -/
def slice {α : Type} (items : List α) : Reader (Slice α) := fun bytes =>
  if h : items.length < 2 ^ 63 then some (⟨items, h⟩, bytes) else none

/-- The string slice of the given bytes. -/
def str (text : List U8) : Reader Str := fun bytes =>
  match String.fromUTF8? ⟨(text.map UInt8.ofBitVec).toArray⟩ with
  | some s => if h : s.utf8ByteSize < 2 ^ 63 then some (⟨s, h⟩, bytes) else none
  | none => none

/-- A string with its length in front. -/
def strWithLen : Reader Str := do str (← take (← u64).toNat)

/-- A string that takes the rest. -/
def strRest : Reader Str := do str (← rest)

/-- A slice of bytes that takes the rest. -/
def bytesRest : Reader (Slice U8) := do slice (← rest)

/-- As many items as given. -/
def many {α : Type} (item : Reader α) : Nat → Reader (List α)
  | 0 => return []
  | n + 1 => do return (← item) :: (← many item n)

/-- A slice with its length in front. -/
def sliceWithLen {α : Type} (item : Reader α) : Reader (Slice α) := do slice (← many item (← u64).toNat)

/-- A flag. -/
def flag : Reader Bool := do return (← u8) == 1

/-- A field of an ordered index. -/
def orderField : Reader OrderIndexFieldCfg := do
  let fieldIdx ← u64
  let flags ← u8
  return { fieldIdx := fieldIdx, isAscending := flags.getLsbD 0, noneIsFirst := flags.getLsbD 1 }

/-- The value that has the code read. -/
def coded {α : Type} (values : List α) (code : α → U64) : Reader α := do
  let read ← u64
  StateT.lift (values.find? fun value => code value == read)

/-- A table kind. -/
def tableKind : Reader TableKind :=
  coded [.schemafull, .schemafullAdt, .schemaless, .schemafullSchemaless, .schemafullAdtSchemaless] TableKind.walCode

/-- A store behaviour. -/
def storeBehavior : Reader TableStoreBehavior :=
  coded [.directlyStorable, .fieldOnly, .singleton] TableStoreBehavior.walCode

/-- A trigger kind. -/
def triggerKind : Reader TriggerExecKind :=
  coded [.beforeInsert, .beforeUpdate, .beforeDelete, .afterInsert, .afterUpdate, .afterDelete] TriggerExecKind.walCode

/-! ## Every reader reads what was written -/

@[simp] theorem le64_length (x : U64) : (le64 x).length = 8 := toLe_length 8 x.toNat

@[simp] theorem take_append {n : Nat} {bs : List U8} (s : List U8) (h : bs.length = n) :
    (take n).run (bs ++ s) = some (bs, s) := by
  subst h
  simp [take, StateT.run]

@[simp] theorem rest_run (bytes : List U8) : rest.run bytes = some (bytes, []) := rfl

@[simp] theorem u64_append (x : U64) (s : List U8) : u64.run (le64 x ++ s) = some (x, s) := by
  have hx : ofLe (le64 x) = x.toNat := ofLe_toLe_of_lt x.isLt
  simp [u64, hx]

@[simp] theorem u64_nil (x : U64) : u64.run (le64 x) = some (x, []) := by
  have h := u64_append x []
  rwa [List.append_nil] at h

@[simp] theorem u8_append (x : U8) (s : List U8) : u8.run (le8 x ++ s) = some (x, s) := rfl

@[simp] theorem flag_append (b : Bool) (s : List U8) : flag.run (le8 (boolU8 b) ++ s) = some (b, s) := by
  cases b <;> simp [flag, boolU8]

@[simp] theorem asBytes_length (s : Str) : s.asBytes.length = s.text.utf8ByteSize := by
  rw [Str.asBytes, List.length_map, Array.length_toList]
  rfl

/-- A string is its bytes. -/
theorem asBytes_inj {s t : Str} (h : s.asBytes = t.asBytes) : s = t := by
  have hbytes : s.text.toByteArray.data.toList = t.text.toByteArray.data.toList :=
    List.map_injective_iff.mpr (fun _ _ => UInt8.toBitVec_inj.mp) h
  have htext : s.text = t.text := String.toByteArray_inj.mp (ByteArray.ext (Array.toList_inj.mp hbytes))
  cases s
  cases t
  simpa using htext

@[simp] theorem str_run (s : Str) (t : List U8) : (str s.asBytes).run t = some (s, t) := by
  have hbytes : (⟨(s.asBytes.map UInt8.ofBitVec).toArray⟩ : ByteArray) = s.text.toByteArray := by
    have hid : UInt8.ofBitVec ∘ UInt8.toBitVec = id := rfl
    rw [Str.asBytes, List.map_map, hid, List.map_id, Array.toArray_toList]
  have hvalid : s.text.toByteArray.IsValidUTF8 := s.text.isValidUTF8
  simp only [str, StateT.run, hbytes, String.fromUTF8?, dif_pos hvalid, String.fromUTF8]
  exact dif_pos s.size_lt

@[simp] theorem strRest_run (s : Str) : strRest.run s.asBytes = some (s, []) := by
  simp only [strRest, StateT.run_bind]
  exact str_run s []

@[simp] theorem bytesRest_run (data : Slice U8) : bytesRest.run data.items = some (data, []) := by
  simp only [bytesRest, StateT.run_bind]
  exact dif_pos data.length_lt

@[simp] theorem strWithLen_append (s : Str) (t : List U8) :
    strWithLen.run (WalEntry.lenBytes s ++ (s.asBytes ++ t)) = some (s, t) := by
  have hlen : (BitVec.ofNat 64 s.asBytes.length).toNat = s.asBytes.length := by
    rw [BitVec.toNat_ofNat]
    have := s.size_lt
    rw [asBytes_length]
    omega
  simp [strWithLen, WalEntry.lenBytes, -asBytes_length, hlen]

/-- As many items as were written are read, when each item is. -/
theorem many_append {α : Type} {item : Reader α} {encode : α → List U8}
    (h : ∀ x s, item.run (encode x ++ s) = some (x, s)) (xs : List α) (s : List U8) :
    (many item xs.length).run (xs.flatMap encode ++ s) = some (xs, s) := by
  induction xs with
  | nil => rfl
  | cons x xs ih => simp [many, h, ih]

/-- A slice with its length in front is read, when each item is. -/
theorem sliceWithLen_append {α : Type} {item : Reader α} {encode : α → List U8}
    (h : ∀ x s, item.run (encode x ++ s) = some (x, s)) (xs : Slice α) (s : List U8) :
    (sliceWithLen item).run (WalEntry.countBytes xs ++ (xs.items.flatMap encode ++ s)) = some (xs, s) := by
  have hlen : (BitVec.ofNat 64 xs.items.length).toNat = xs.items.length := by
    rw [BitVec.toNat_ofNat]
    have := xs.length_lt
    omega
  simp only [sliceWithLen, WalEntry.countBytes, StateT.run_bind, u64_append, Option.bind_eq_bind, Option.bind_some, hlen,
    many_append h]
  exact dif_pos xs.length_lt

@[simp] theorem sliceWithLen_u64_append (xs : Slice U64) (s : List U8) :
    (sliceWithLen u64).run (WalEntry.countBytes xs ++ ((xs.items.map le64).flatten ++ s)) = some (xs, s) :=
  sliceWithLen_append u64_append xs s

@[simp] theorem orderField_append (field : OrderIndexFieldCfg) (s : List U8) :
    orderField.run ([le64 field.fieldIdx, le8 (WalEntry.orderFlags field)].flatten ++ s) = some (field, s) := by
  obtain ⟨idx, asc, first⟩ := field
  cases asc <;> cases first <;> simp [orderField, WalEntry.orderFlags, boolU8]

@[simp] theorem sliceWithLen_orderField_append (xs : Slice OrderIndexFieldCfg) (s : List U8) :
    (sliceWithLen orderField).run (WalEntry.countBytes xs ++
      ((xs.items.flatMap fun field => [le64 field.fieldIdx, le8 (WalEntry.orderFlags field)]).flatten ++ s)) =
        some (xs, s) := by
  have hflat : (xs.items.flatMap fun field => [le64 field.fieldIdx, le8 (WalEntry.orderFlags field)]).flatten =
      xs.items.flatMap fun field => [le64 field.fieldIdx, le8 (WalEntry.orderFlags field)].flatten := by
    rw [← List.flatMap_id, List.flatMap_assoc]
    simp only [List.flatMap_id]
  rw [hflat]
  exact sliceWithLen_append orderField_append xs s

@[simp] theorem tableKind_append (kind : TableKind) (s : List U8) :
    tableKind.run (le64 kind.walCode ++ s) = some (kind, s) := by
  cases kind <;> simp [tableKind, coded, TableKind.walCode]

@[simp] theorem storeBehavior_append (behavior : TableStoreBehavior) (s : List U8) :
    storeBehavior.run (le64 behavior.walCode ++ s) = some (behavior, s) := by
  cases behavior <;> simp [storeBehavior, coded, TableStoreBehavior.walCode]

@[simp] theorem triggerKind_append (kind : TriggerExecKind) (s : List U8) :
    triggerKind.run (le64 kind.walCode ++ s) = some (kind, s) := by
  cases kind <;> simp [triggerKind, coded, TriggerExecKind.walCode]

@[simp] theorem triggerKind_nil (kind : TriggerExecKind) : triggerKind.run (le64 kind.walCode) = some (kind, []) := by
  have h := triggerKind_append kind []
  rwa [List.append_nil] at h

end Reader

/-! ## The reader of entries -/

open Reader

/-- The entry of a kind, from its payload. -/
def readEntry (code : U64) : Reader WalEntry :=
  match code.toNat with
  | 0x01 => do return .insert (← u64) (← u64) (← bytesRest)
  | 0x02 => do return .update (← u64) (← u64) (← u64) (← bytesRest)
  | 0x03 => do return .delete (← u64) (← u64)
  | 0x05 => do return .commit
  | 0x06 => do return .rollback
  | 0x07 => do return .createTable (← u64) (← tableKind) (← storeBehavior) (← strRest)
  | 0x08 => do return .dropTable (← u64)
  | 0x09 => do return .commentTable (← u64) (← strRest)
  | 0x0A => do return .renameTable (← u64) (← strRest)
  | 0x0B => do return .createTableValidation (← u64) (← strWithLen) (← strRest)
  | 0x0C => do return .commentTableValidation (← u64) (← u64) (← strRest)
  | 0x0D => do return .dropTableValidation (← u64) (← u64)
  | 0x0E => do return .renameTableValidation (← u64) (← u64) (← strRest)
  | 0x0F => do return .createAdtVariant (← u64) (← strRest)
  | 0x10 => do return .commentAdtVariant (← u64) (← u64) (← strRest)
  | 0x11 => do return .renameAdtVariant (← u64) (← u64) (← strRest)
  | 0x12 => do return .dropAdtVariant (← u64) (← u64)
  | 0x13 => do return .bindSchemalessField (← u64) (← u64) (← strRest)
  | 0x14 => do return .unbindSchemalessField (← u64) (← u64) (← strRest)
  | 0x15 => do return .createTableTrigger (← u64) (← triggerKind) (← strRest)
  | 0x16 => do return .dropTableTrigger (← u64) (← triggerKind)
  | 0x17 => do return .createFieldTriggerQuery (← u64) (← u64) (← u64) (← triggerKind) (← strRest)
  | 0x18 => do return .dropFieldTrigger (← u64) (← u64) (← u64) (← triggerKind)
  | 0x19 => do return .createField (← u64) (← u64) (← u64) (← strRest)
  | 0x1A => do return .setFieldDefault (← u64) (← u64) (← u64) (← bytesRest)
  | 0x1B => do return .setFieldComputed (← u64) (← u64) (← u64) (← strRest)
  | 0x1C => do return .setFieldCheck (← u64) (← u64) (← u64) (← strRest)
  | 0x1D => do return .setFieldTransform (← u64) (← u64) (← u64) (← strRest)
  | 0x1E => do return .commentField (← u64) (← u64) (← u64) (← strRest)
  | 0x1F => do return .renameField (← u64) (← u64) (← u64) (← strRest)
  | 0x20 => do return .dropField (← u64) (← u64) (← u64)
  | 0x21 => do return .createIndexUnique (← u64) (← u64) (← sliceWithLen u64) (← flag) (← strRest)
  | 0x22 => do return .createIndexOrder (← u64) (← u64) (← sliceWithLen orderField) (← strRest)
  | 0x23 => do return .createIndexEqual (← u64) (← u64) (← sliceWithLen u64) (← strRest)
  | 0x24 => do return .commentIndex (← u64) (← u64) (← u64) (← strRest)
  | 0x25 => do return .renameIndex (← u64) (← u64) (← u64) (← strRest)
  | 0x26 => do return .dropIndex (← u64) (← u64) (← u64)
  | 0x28 => do return .commentFn (← u64) (← strWithLen) (← strRest)
  | 0x29 => do return .renameFn (← u64) (← strWithLen) (← strRest)
  | 0x2A => do return .dropFn (← u64) (← strRest)
  | _ => StateT.lift none

/-- The kind whose payload runs two strings together. -/
def WalEntry.isCreateFn : WalEntry → Bool
  | .createFn .. => true
  | _ => false

/-- Every entry of another kind is read back from its kind code and payload. -/
theorem readEntry_payload {entry : WalEntry} (h : entry.isCreateFn = false) :
    (readEntry entry.walCode).run entry.payload = some (entry, []) := by
  cases entry with
  | createFn => cases h
  | _ => simp [readEntry, WalEntry.walCode, WalEntry.payload, WalEntry.payloadWrites]

/-! ## What kind code and payload determine -/

namespace WalEntry

/-- The kind code tells the kind whose payload runs two strings together. -/
theorem walCode_eq_createFn_iff (entry : WalEntry) : entry.walCode = 0x27 ↔ entry.isCreateFn = true := by
  cases entry <;> simp [walCode, isCreateFn]

/-- The parts that a payload of this kind tells apart: the last two are joined. -/
def fnParts : Reader (U64 × U64 × Bool × List U8) := do return (← u64, ← u64, ← flag, ← rest)

theorem fnParts_payload (selfArg returns : U64) (byRef : Bool) (name code : Str) :
    fnParts.run (createFn selfArg returns byRef name code).payload =
      some ((selfArg, returns, byRef, name.asBytes ++ code.asBytes), []) := by
  simp [fnParts, payload, payloadWrites]

/-- Payloads of this kind are equal when their first three parts are, and the name and the code joined. -/
theorem payload_createFn_eq_iff {selfArg selfArg' returns returns' : U64} {byRef byRef' : Bool}
    {name code name' code' : Str} :
    (createFn selfArg returns byRef name code).payload = (createFn selfArg' returns' byRef' name' code').payload ↔
      selfArg = selfArg' ∧ returns = returns' ∧ byRef = byRef' ∧
        name.asBytes ++ code.asBytes = name'.asBytes ++ code'.asBytes := by
  constructor
  · intro h
    have hsame := congrArg fnParts.run h
    rw [fnParts_payload, fnParts_payload] at hsame
    simpa using hsame
  · rintro ⟨rfl, rfl, rfl, h⟩
    simp [payload, payloadWrites, h]

/-- Two entries that create functions of the same signature under different names, whose names and codes run
together to the same text. -/
def RunTogether (e₁ e₂ : WalEntry) : Prop :=
  ∃ selfArg returns byRef name code name' code', e₁ = createFn selfArg returns byRef name code ∧
    e₂ = createFn selfArg returns byRef name' code' ∧ name ≠ name' ∧
    name.asBytes ++ code.asBytes = name'.asBytes ++ code'.asBytes

end WalEntry

/-- When kind code and payload determine an entry: exactly when the two entries do not create functions of the same
signature under different names, whose names and codes run together to the same text. -/
theorem payload_inj_iff (e₁ e₂ : WalEntry) :
    (e₁.walCode = e₂.walCode → e₁.payload = e₂.payload → e₁ = e₂) ↔ ¬e₁.RunTogether e₂ := by
  constructor
  · rintro h ⟨selfArg, returns, byRef, name, code, name', code', rfl, rfl, hne, htext⟩
    have heq := h rfl (WalEntry.payload_createFn_eq_iff.mpr ⟨rfl, rfl, rfl, htext⟩)
    exact hne (WalEntry.createFn.inj heq).2.2.2.1
  · intro h hcode hpayload
    have hkind : e₁.isCreateFn = e₂.isCreateFn := by
      rw [Bool.eq_iff_iff, ← WalEntry.walCode_eq_createFn_iff, ← WalEntry.walCode_eq_createFn_iff, hcode]
    cases hk : e₁.isCreateFn with
    | false =>
      have h₁ := readEntry_payload hk
      rw [hcode, hpayload, readEntry_payload (hkind ▸ hk)] at h₁
      simpa using h₁.symm
    | true =>
      cases e₁ with
      | createFn selfArg returns byRef name code =>
        cases e₂ with
        | createFn selfArg' returns' byRef' name' code' =>
          obtain ⟨rfl, rfl, rfl, htext⟩ := WalEntry.payload_createFn_eq_iff.mp hpayload
          by_cases hname : name = name'
          · subst hname
            rw [asBytes_inj (List.append_cancel_left htext)]
          · exact absurd ⟨_, _, _, _, _, _, _, rfl, rfl, hname, htext⟩ h
        | _ => cases hkind
      | _ => cases hk

/-- A function named `ab` of code `c`, and one named `a` of code `bc`. -/
theorem payload_not_inj :
    let e₁ := WalEntry.createFn 0 0 false ⟨"ab", by decide⟩ ⟨"c", by decide⟩
    let e₂ := WalEntry.createFn 0 0 false ⟨"a", by decide⟩ ⟨"bc", by decide⟩
    e₁.walCode = e₂.walCode ∧ e₁.payload = e₂.payload ∧ e₁ ≠ e₂ := by
  refine ⟨rfl, by decide, ?_⟩
  intro h
  exact absurd (WalEntry.createFn.inj h).2.2.2.1 (by decide)

end Kobzar
