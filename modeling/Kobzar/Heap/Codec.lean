import Kobzar.Heap.Write

/-!
# Variants and BLOB headers, written and read back

The writer puts the numbers of a record into the file with their least significant bytes first, on any machine; the
reader takes the bytes of the file for a number as the machine it runs on has it. Both agree on a machine of that
byte order, and on any other only where a number has the same bytes in both orders (`fields_round_trip_iff`).
-/

namespace Kobzar

open Bytes Reading Writer Overwriting

/-- The order of the bytes of a number on a machine: the least or the most significant byte first. -/
inductive ByteOrder where
  | little
  | big
  deriving DecidableEq, Repr

/-- The word of `n` bytes at a place, as a machine has it. -/
def ByteOrder.wordAt (order : ByteOrder) (n : Nat) (bytes : List U8) (place : Nat) : BitVec (8 * n) :=
  match order with
  | little => Bytes.wordAt n bytes place
  | big => Bytes.wordAt n ((bytes.drop place).take n).reverse 0

/-! ## One field -/

/-- A field of a record, as the writer takes it and the reader gives it. -/
inductive HeapField where
  | variant (value : U32)
  | blob (value : BlobStorable)
  deriving DecidableEq, Repr

/-- Which of the reads gives a field. -/
inductive FieldKind where
  | variant
  | blob
  deriving DecidableEq, Repr

/-- A write of a field, with the room that the device has for it. -/
inductive FieldWrite where
  | variant (value : U32) (rooms : List Room)
  | blob (value : BlobStorable) (rooms rooms' : List Room)

namespace FieldWrite

/-- The field written. -/
def field : FieldWrite → HeapField
  | variant value _ => .variant value
  | blob value _ _ => .blob value

/-- The call that writes it. -/
def call : FieldWrite → WriteCall
  | variant value rooms => .writeAdtVariant value rooms
  | blob value rooms rooms' => .writeBlobStorable value rooms rooms'

end FieldWrite

namespace HeapField

/-- Which of the reads gives the field. -/
def kind : HeapField → FieldKind
  | variant _ => .variant
  | blob _ => .blob

/-- The bytes that the writer writes for a field. -/
def bytes : HeapField → List U8
  | variant value => toLe 4 value.toNat
  | blob value => toLe 8 value.blobOffset.toNat ++ toLe 8 value.blobSize.toNat

/-- Every number of the field has the same bytes in both orders. -/
def Symmetric : HeapField → Prop
  | variant value => (toLe 4 value.toNat).reverse = toLe 4 value.toNat
  | blob value => (toLe 8 value.blobOffset.toNat).reverse = toLe 8 value.blobOffset.toNat ∧
      (toLe 8 value.blobSize.toNat).reverse = toLe 8 value.blobSize.toNat

end HeapField

namespace FieldKind

/-- How many bytes the read of a field reads. -/
def size : FieldKind → Nat
  | variant => 4
  | blob => 16

/-- The bytes of a field taken for a field on a machine: `transmute`. -/
def transmute (order : ByteOrder) (bytes : List U8) : FieldKind → HeapField
  | variant => .variant (order.wordAt 4 bytes 0)
  | blob => .blob { blobOffset := order.wordAt 8 bytes 0, blobSize := order.wordAt 8 bytes 8 }

/-- `adt_variant` or `read_blob_storable` on a machine. -/
def read (order : ByteOrder) (this : HeapRead) (kind : FieldKind) (grants : Nat → Grant) : HeapResult HeapField :=
  this.readValue kind.size (fun bytes => kind.transmute order bytes) grants

end FieldKind

/-- The reads of the kinds of fields, one after another, up to the first that fails. -/
def readFields (order : ByteOrder) : HeapRead → List FieldKind → (Nat → Nat → Grant) →
    Except HeapError (List HeapField)
  | _, [], _ => .ok []
  | this, kind :: kinds, grants => do
    let out := kind.read order this (grants 0)
    let field ← out.result
    let fields ← readFields order out.reader kinds fun k => grants (k + 1)
    return field :: fields

/-! ## What a field is read back as -/

/-- A word read at the place where its bytes stand is the word, if the machine has it so. -/
theorem wordAt_toLe_iff (order : ByteOrder) {n : Nat} (x : BitVec (8 * n)) {bytes : List U8} {place : Nat}
    (hbytes : (bytes.drop place).take n = toLe n x.toNat) :
    order.wordAt n bytes place = x ↔ order = .little ∨ (toLe n x.toNat).reverse = toLe n x.toNat := by
  have hpow : 2 ^ (8 * n) = 256 ^ n := Nat.pow_mul 2 8 n
  have hlt : x.toNat < 256 ^ n := hpow ▸ x.isLt
  cases order with
  | little =>
    have hword : Bytes.wordAt n bytes place = x := by
      rw [Bytes.wordAt, hbytes, ofLe_toLe_of_lt hlt, BitVec.ofNat_toNat, BitVec.setWidth_eq]
    exact iff_of_true hword (Or.inl rfl)
  | big =>
    have hlen : (toLe n x.toNat).reverse.length = n := by rw [List.length_reverse, toLe_length]
    have hword : ByteOrder.big.wordAt n bytes place = BitVec.ofNat _ (ofLe (toLe n x.toNat).reverse) := by
      rw [ByteOrder.wordAt, hbytes, Bytes.wordAt, List.drop_zero, List.take_of_length_le (Nat.le_of_eq hlen)]
    have hrev := ofLe_lt (toLe n x.toNat).reverse
    rw [hlen] at hrev
    rw [hword, ← BitVec.toNat_inj, BitVec.toNat_ofNat, hpow, Nat.mod_eq_of_lt hrev]
    constructor
    · intro heq
      exact Or.inr (ofLe_inj (hlen.trans (toLe_length n x.toNat).symm) (heq.trans (ofLe_toLe_of_lt hlt).symm))
    · rintro (hlittle | hsym)
      · cases hlittle
      · rw [hsym, ofLe_toLe_of_lt hlt]

namespace HeapField

/-- A field has as many bytes as its read reads. -/
theorem length_bytes (field : HeapField) : field.bytes.length = field.kind.size := by
  cases field with
  | variant value => exact toLe_length 4 _
  | blob value => rw [bytes, List.length_append, toLe_length, toLe_length, kind, FieldKind.size]

/-- What the bytes of a field are taken for is the field, if the machine has its numbers so. -/
theorem transmute_bytes_iff (order : ByteOrder) (field : HeapField) :
    field.kind.transmute order field.bytes = field ↔ order = .little ∨ field.Symmetric := by
  cases field with
  | variant value =>
    have hword := @wordAt_toLe_iff order 4 value (toLe 4 value.toNat) 0
      (by rw [List.drop_zero, List.take_of_length_le (by rw [toLe_length])])
    simp only [kind, bytes, FieldKind.transmute, variant.injEq, Symmetric]
    exact hword
  | blob value =>
    obtain ⟨offset, size⟩ := value
    have hoffset := @wordAt_toLe_iff order 8 offset (toLe 8 offset.toNat ++ toLe 8 size.toNat) 0
      (by rw [List.drop_zero, List.take_left' (toLe_length 8 _)])
    have hsize := @wordAt_toLe_iff order 8 size (toLe 8 offset.toNat ++ toLe 8 size.toNat) 8
      (by rw [List.drop_left' (toLe_length 8 _), List.take_of_length_le (by rw [toLe_length])])
    simp only [kind, bytes, FieldKind.transmute, blob.injEq, BlobStorable.mk.injEq, Symmetric]
    rw [or_and_left]
    exact and_congr hoffset hsize

end HeapField

/-! ## Fields read one after another -/

/-- A read through the buffer that no read of the file lets down gives the value of the bytes to come, and leaves
the others. -/
theorem FieldKind.read_ok (order : ByteOrder) {this : HeapRead} (kind : FieldKind) {grants : Nat → Grant}
    (hgrants : ∀ i, (grants i).isSome) (hlen : kind.size ≤ this.file.rest.length) :
    (kind.read order this grants).result = .ok (kind.transmute order (this.file.rest.take kind.size)) ∧
      (kind.read order this grants).reader.file.rest = this.file.rest.drop kind.size := by
  have hdelivers := BufReader.read_delivers HeapRead.capacity this.file.file.contents
  have hok : (readExact (BufReader.read HeapRead.capacity) kind.size grants this.file).error = none :=
    hdelivers.readExactFrom_error (BufReader.read_serves HeapRead.capacity) hgrants rfl hlen
  refine ⟨?_, hdelivers.rest_readExact rfl hok⟩
  obtain ⟨htaken, -⟩ := hdelivers.readExact_ok rfl hok
  simp only [FieldKind.read, HeapRead.readValue, hok, htaken]

/-- Where the bytes of fields are to come, the reads of their kinds give what these bytes are taken for. -/
theorem readFields_ok (order : ByteOrder) {this : HeapRead} {fields : List HeapField} {back : List U8}
    (hrest : this.file.rest = fields.flatMap HeapField.bytes ++ back) {grants : Nat → Nat → Grant}
    (hgrants : ∀ k i, (grants k i).isSome) :
    readFields order this (fields.map HeapField.kind) grants =
      .ok (fields.map fun field => field.kind.transmute order field.bytes) := by
  induction fields generalizing this grants with
  | nil => rfl
  | cons field fields ih =>
    rw [List.flatMap_cons, List.append_assoc] at hrest
    have hlen := field.length_bytes
    have henough : field.kind.size ≤ this.file.rest.length := by
      rw [hrest, List.length_append, hlen]
      exact Nat.le_add_right _ _
    obtain ⟨hresult, hreader⟩ := FieldKind.read_ok order field.kind (hgrants 0) henough
    rw [hrest, List.take_left' hlen] at hresult
    rw [hrest, List.drop_left' hlen] at hreader
    rw [List.map_cons, readFields]
    simp only [hresult, ok_bind, ih hreader fun k => hgrants (k + 1)]
    rfl

/-! ## Fields written one after another -/

/-- Calls and one more all succeed when the calls do, and then the one more. -/
theorem HeapWrite.runAll_concat {this this' : HeapWrite} {calls : List WriteCall} {call : WriteCall}
    (h : this.runAll (calls ++ [call]) = (.ok (), this')) :
    ∃ mid, this.runAll calls = (.ok (), mid) ∧ call.run mid = (.ok (), this') := by
  induction calls generalizing this with
  | nil =>
    obtain ⟨mid, hcall, hnone⟩ := runAll_cons h
    cases hnone
    exact ⟨this, rfl, hcall⟩
  | cons first calls ih =>
    obtain ⟨next, hfirst, hcalls⟩ := runAll_cons h
    obtain ⟨mid, hmid, hcall⟩ := ih hcalls
    refine ⟨mid, ?_, hcall⟩
    unfold runAll
    rw [hfirst]
    exact hmid

/-- Calls that write where the writer is put their bytes one behind the other. -/
theorem Ledger.run_writes (ledger : Ledger) {calls : List WriteCall}
    (hstay : ∀ call ∈ calls, ∀ place, call.target place = place) :
    (ledger.run calls).last = record ledger.last ledger.place (calls.flatMap WriteCall.bytes) := by
  induction calls generalizing ledger with
  | nil => exact (record_nil _ _).symm
  | cons call calls ih =>
    obtain ⟨hcall, hcalls⟩ := List.forall_mem_cons.mp hstay
    rw [Ledger.run, List.foldl_cons, ← Ledger.run, ih _ hcalls, Ledger.step, hcall, record_append, List.flatMap_cons]

/-- After the writer moved to an offset, wrote there and told its position, all successfully on a device that
refused nothing, what it wrote stands in the file at the offset. -/
theorem writes_stand {file : Reading.File U8} {start : U32} {calls : List WriteCall}
    (hstay : ∀ call ∈ calls, ∀ place, call.target place = place) {rooms rooms' : List Room}
    {grant grant' : SeekGrant} {this : HeapWrite} (hok : (HeapWrite.new file).runAll
      (.moveTo start rooms grant :: calls ++ [.position rooms' grant']) = (.ok (), this)) (htaken : this.refused = 0) :
    ∃ back, this.dropped.contents.drop start.toNat = calls.flatMap WriteCall.bytes ++ back := by
  obtain ⟨mid, -, hposition⟩ := HeapWrite.runAll_concat hok
  have hnil : this.file.buffer = [] := by
    rw [WriteCall.run_position] at hposition
    exact (BufWriter.seek_ok (HeapWrite.outcome_ok hposition)).1
  have hall := ((Ledger.kept_start file).run hok htaken).held.dropped_iff.mpr (by rw [hnil]; rfl)
  -- telling the position writes nothing where the writer is
  have hstay' : ∀ call ∈ calls ++ [WriteCall.position rooms' grant'], ∀ place, call.target place = place := by
    intro call hcall
    rcases List.mem_append.mp hcall with hcall | hcall
    · exact hstay call hcall
    · cases List.mem_singleton.mp hcall
      exact fun _ => rfl
  have hbytes : (calls ++ [WriteCall.position rooms' grant']).flatMap WriteCall.bytes =
      calls.flatMap WriteCall.bytes := by
    rw [List.flatMap_append, List.flatMap_singleton]
    exact List.append_nil _
  rw [List.cons_append, Ledger.run, List.foldl_cons, ← Ledger.run, Ledger.run_writes _ hstay',
    Ledger.step_of_no_bytes rfl, hbytes] at hall
  exact ⟨_, drop_of_record hall⟩

/-- The call that writes a field writes its bytes, where the writer is. -/
theorem FieldWrite.call_spec (write : FieldWrite) :
    write.call.bytes = write.field.bytes ∧ ∀ place, write.call.target place = place := by
  cases write <;> exact ⟨rfl, fun _ => rfl⟩

/-- When fields are read back as they were written. Fields are written back to back at an offset, all successfully
on a device that refuses nothing, and a reader of the file moves to the offset and reads as many fields of the same
kinds, through its buffer, and no read of the file fails: it reads the same fields exactly when the machine has the
least significant byte first, or every number written has the same bytes in both orders. -/
theorem fields_round_trip_iff (order : ByteOrder) (file : Reading.File U8) (start : U32) (writes : List FieldWrite)
    (rooms rooms' : List Room) (grant grant' : SeekGrant) {this : HeapWrite}
    (hok : (HeapWrite.new file).runAll (.moveTo start rooms grant :: writes.map FieldWrite.call ++
      [.position rooms' grant']) = (.ok (), this)) (htaken : this.refused = 0) (pos : Nat)
    (readGrants : Nat → Nat → Grant)
    (hgrants : ∀ k i, (readGrants k i).isSome) :
    readFields order ((HeapRead.new { this.dropped with pos }).gotoRecordAt start true).reader
        ((writes.map FieldWrite.field).map HeapField.kind) readGrants = .ok (writes.map FieldWrite.field) ↔
      (order = .little ∨ ∀ write ∈ writes, write.field.Symmetric) := by
  obtain ⟨back, hback⟩ := writes_stand (fun call hcall => by
    obtain ⟨write, -, rfl⟩ := List.mem_map.mp hcall
    exact write.call_spec.2) hok htaken
  have hbytes : (writes.map FieldWrite.call).flatMap WriteCall.bytes =
      (writes.map FieldWrite.field).flatMap HeapField.bytes := by
    simp only [List.flatMap_map, FieldWrite.call_spec]
  rw [hbytes] at hback
  have hrest : ((HeapRead.new { this.dropped with pos }).gotoRecordAt start true).reader.file.rest =
      (writes.map FieldWrite.field).flatMap HeapField.bytes ++ back := hback
  rw [readFields_ok order hrest hgrants, Except.ok.injEq, List.map_map]
  constructor
  · intro h
    by_cases horder : order = .little
    · exact Or.inl horder
    · refine Or.inr ?_
      intro write hwrite
      exact ((write.field.transmute_bytes_iff order).mp (List.map_inj_left.mp h write hwrite)).resolve_left horder
  · intro h
    refine List.map_inj_left.mpr ?_
    intro write hwrite
    exact (write.field.transmute_bytes_iff order).mpr (h.imp_right fun hall => hall write hwrite)

/-! ### A variant and a BLOB header, written to an empty file -/

/-- The variant 7, then a BLOB header with a flag. -/
def exampleWrites : List FieldWrite := [.variant 7 [], .blob { blobOffset := 0x8000000000000010, blobSize := 5 } [] []]

/-- The writer after it wrote them at the start. -/
def exampleWriter : HeapWrite :=
  ((HeapWrite.new noBytes).runAll (.moveTo 0 [] grantSeek :: exampleWrites.map FieldWrite.call ++
    [.position [] grantSeek])).2

/-- They are read back on a machine that has the least significant byte first. -/
theorem fields_round_trip_little :
    readFields .little ((HeapRead.new { exampleWriter.dropped with pos := 20 }).gotoRecordAt 0 true).reader
      [.variant, .blob] (fun _ _ => some 8191) =
        .ok [.variant 7, .blob { blobOffset := 0x8000000000000010, blobSize := 5 }] :=
  (fields_round_trip_iff .little noBytes 0 exampleWrites [] [] grantSeek grantSeek
    (Prod.ext (show _ = Except.ok () by decide +kernel) rfl) (by decide +kernel) 20 (fun _ _ => some 8191)
      fun _ _ => rfl).mpr
      (Or.inl rfl)

/-- On a machine that has the most significant byte first, the variant, which was written, is read back as another. -/
theorem fields_not_read_back_big :
    ((HeapWrite.new noBytes).runAll (.moveTo 0 [] grantSeek :: exampleWrites.map FieldWrite.call ++
      [.position [] grantSeek])).1 = .ok () ∧
    readFields .big ((HeapRead.new { exampleWriter.dropped with pos := 20 }).gotoRecordAt 0 true).reader
        [.variant] (fun _ _ => some 8191) = .ok [.variant 0x07000000] := by
  decide +kernel

end Kobzar
