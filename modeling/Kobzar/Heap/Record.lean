import Kobzar.Heap.Codec

/-!
# Records, written and read back

A record is a bitmap, inline data, a variant and BLOB headers. The bitmap and the inline data are read past the
buffer, the others through it. A record whose parts of the first kind come before those of the second is read back
as it was written (`record_round_trip`).
-/

namespace Kobzar

open Bytes Reading Writer Overwriting

/-! ## Parts that are read past the buffer -/

/-- The parts of a record that are read past the buffer. -/
inductive RawKind where
  | bitmap
  | inline
  deriving DecidableEq, Repr

namespace RawKind

/-- `write_bitmap` or `write_inline`. -/
def write (bytes : List U8) (rooms : List Room) : RawKind → WriteCall
  | bitmap => .writeBitmap bytes rooms
  | inline => .writeInline bytes rooms

/-- `read_bitmap` or `read_inline`. -/
def read (this : HeapRead) (len : Nat) (grants : Nat → Grant) : RawKind → HeapResult (List U8)
  | bitmap => this.readBitmap len grants
  | inline => this.readInline len grants

end RawKind

/-- A write of such a part, with the room that the device has for it. -/
structure RawWrite where
  kind : RawKind
  bytes : List U8
  rooms : List Room

/-- The call that writes it. -/
def RawWrite.call (write : RawWrite) : WriteCall := write.kind.write write.bytes write.rooms

/-- The reads of such parts of given lengths, one after another, up to the first that fails, and the reader after them. -/
def readRaws : HeapRead → List (RawKind × Nat) → (Nat → Nat → Grant) →
    Except HeapError (List (List U8)) × HeapRead
  | this, [], _ => (.ok [], this)
  | this, (kind, len) :: parts, grants =>
    let out := kind.read this len (grants 0)
    match out.result with
    | .error e => (.error e, out.reader)
    | .ok bytes =>
      let (rest, reader) := readRaws out.reader parts fun k => grants (k + 1)
      (rest.map (bytes :: ·), reader)

/-- A read past the buffer that no read of the file lets down gives the bytes to come in the file, and leaves the
others and the buffer. -/
theorem HeapRead.readRaw_of_ahead {this : HeapRead} (text : String) {grants : Nat → Grant}
    (hgrants : ∀ i, (grants i).isSome) {bytes back : List U8} (hahead : this.file.file.ahead = bytes ++ back) :
    (this.readRaw text bytes.length grants).result = .ok bytes ∧
      (this.readRaw text bytes.length grants).reader.file.file.ahead = back ∧
      (this.readRaw text bytes.length grants).reader.file.buffer = this.file.buffer := by
  have hdelivers := File.read_delivers this.file.file.contents
  have hlen : bytes.length ≤ this.file.file.ahead.length := by
    rw [hahead, List.length_append]
    exact Nat.le_add_right _ _
  have hok : (readExact File.read bytes.length grants this.file.file).error = none :=
    hdelivers.readExactFrom_error BufReader.serves_gives_file_read.1 hgrants rfl hlen
  obtain ⟨htaken, -⟩ := hdelivers.readExact_ok rfl hok
  have hrest := hdelivers.rest_readExact rfl hok
  rw [hahead, List.take_left] at htaken
  rw [hahead, List.drop_left] at hrest
  refine ⟨?_, hrest, rfl⟩
  simp only [readRaw, hok, htaken, if_true]

/-- Where the bytes of parts are to come in the file, the reads of parts of their lengths give them. -/
theorem readRaws_ok {this : HeapRead} {writes : List RawWrite} {back : List U8}
    (hahead : this.file.file.ahead = writes.flatMap RawWrite.bytes ++ back) {grants : Nat → Nat → Grant}
    (hgrants : ∀ k i, (grants k i).isSome) :
    ∃ reader, readRaws this (writes.map fun write => (write.kind, write.bytes.length)) grants =
        (.ok (writes.map RawWrite.bytes), reader) ∧
      reader.file.file.ahead = back ∧ reader.file.buffer = this.file.buffer := by
  induction writes generalizing this grants with
  | nil => exact ⟨this, rfl, hahead, rfl⟩
  | cons write writes ih =>
    rw [List.flatMap_cons, List.append_assoc] at hahead
    have hread : ∃ text, write.kind.read this write.bytes.length (grants 0) =
        this.readRaw text write.bytes.length (grants 0) := by
      cases write.kind <;> exact ⟨_, rfl⟩
    obtain ⟨text, hread⟩ := hread
    obtain ⟨hresult, hrest, hbuffer⟩ := HeapRead.readRaw_of_ahead text (hgrants 0) hahead
    obtain ⟨reader, hreads, hback, hsame⟩ := ih hrest fun k => hgrants (k + 1)
    refine ⟨reader, ?_, hback, hsame.trans hbuffer⟩
    rw [List.map_cons, readRaws, hread]
    simp only [hresult, hreads]
    rfl

/-! ## Records -/

/-- A record is written: the writer moves to its place, writes the parts that are read past the buffer, then the
fields, and tells its position. -/
def recordCalls (start : U32) (raws : List RawWrite) (fields : List FieldWrite) (rooms rooms' : List Room)
    (grant grant' : SeekGrant) : List WriteCall :=
  .moveTo start rooms grant :: (raws.map RawWrite.call ++ fields.map FieldWrite.call) ++ [.position rooms' grant']

/-- A record that is written, all successfully on a device that refuses nothing, is read back by a new reader that
moves to its place, on a machine that has the least significant byte first, when no read of the file fails: first
the parts that are read past the buffer, then the fields. -/
theorem record_round_trip (file : Reading.File U8) (start : U32) (raws : List RawWrite) (fields : List FieldWrite)
    (rooms rooms' : List Room) (grant grant' : SeekGrant) {this : HeapWrite}
    (hok : (HeapWrite.new file).runAll (recordCalls start raws fields rooms rooms' grant grant') = (.ok (), this))
    (htaken : this.refused = 0) (pos : Nat) (rawGrants fieldGrants : Nat → Nat → Grant)
    (hraws : ∀ k i, (rawGrants k i).isSome) (hfields : ∀ k i, (fieldGrants k i).isSome) :
    let out := readRaws ((HeapRead.new { this.dropped with pos }).gotoRecordAt start true).reader
      (raws.map fun write => (write.kind, write.bytes.length)) rawGrants
    out.1 = .ok (raws.map RawWrite.bytes) ∧
      readFields .little out.2 ((fields.map FieldWrite.field).map HeapField.kind) fieldGrants =
        .ok (fields.map FieldWrite.field) := by
  have hrawBytes : ∀ write : RawWrite, write.call.bytes = write.bytes ∧
      ∀ place, write.call.target place = place := by
    rintro ⟨kind, bytes, rooms⟩
    cases kind <;> exact ⟨rfl, fun _ => rfl⟩
  have hstay : ∀ call ∈ raws.map RawWrite.call ++ fields.map FieldWrite.call, ∀ place,
      call.target place = place := by
    intro call hcall
    rcases List.mem_append.mp hcall with hraw | hfield
    · obtain ⟨write, -, rfl⟩ := List.mem_map.mp hraw
      exact (hrawBytes write).2
    · obtain ⟨write, -, rfl⟩ := List.mem_map.mp hfield
      exact write.call_spec.2
  obtain ⟨back, hback⟩ := writes_stand hstay hok htaken
  have hahead : ((HeapRead.new { this.dropped with pos }).gotoRecordAt start true).reader.file.file.ahead =
      raws.flatMap RawWrite.bytes ++ ((fields.map FieldWrite.field).flatMap HeapField.bytes ++ back) := by
    refine hback.trans ?_
    simp [List.flatMap_append, List.flatMap_map, hrawBytes, FieldWrite.call_spec]
  obtain ⟨reader, hreads, hrest, hbuffer⟩ := readRaws_ok hahead hraws
  rw [hreads]
  refine ⟨rfl, ?_⟩
  have hfile : reader.file.rest = (fields.map FieldWrite.field).flatMap HeapField.bytes ++ back := by
    rw [BufReader.rest, hbuffer, hrest]
    rfl
  have hsame : ∀ field : HeapField, field.kind.transmute .little field.bytes = field :=
    fun field => (field.transmute_bytes_iff .little).mpr (Or.inl rfl)
  rw [readFields_ok .little hfile hfields]
  simp [hsame]

/-- A bitmap of three bytes, then one byte of inline data. -/
def exampleRaws : List RawWrite := [⟨.bitmap, [1, 2, 3], []⟩, ⟨.inline, [9], []⟩]

/-- The writer after it wrote them and two fields at the third byte of an empty file. -/
def recordWriter : HeapWrite :=
  ((HeapWrite.new noBytes).runAll (recordCalls 2 exampleRaws exampleWrites [] [] grantSeek grantSeek)).2

/-- They are read back. -/
theorem record_round_trip_example :
    (readRaws ((HeapRead.new { recordWriter.dropped with pos := 0 }).gotoRecordAt 2 true).reader
      [(.bitmap, 3), (.inline, 1)] fun _ _ => some 0).1 = .ok [[1, 2, 3], [9]] :=
  (record_round_trip noBytes 2 exampleRaws exampleWrites [] [] grantSeek grantSeek
    (Prod.ext (show _ = Except.ok () by decide +kernel) rfl) (by decide +kernel) 0 (fun _ _ => some 0)
      (fun _ _ => some 8191)
    (fun _ _ => rfl) fun _ _ => rfl).1

end Kobzar
