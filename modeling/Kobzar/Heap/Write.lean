import Kobzar.Machine
import Kobzar.Library.Bytes
import Kobzar.Library.Overwriting
import Kobzar.Heap.Read

/-!
# The heap file writer

`HeapWrite` moves to a place of the heap file and writes the parts of a record there, all through the buffer.
Nothing in it writes the buffer out at the end, so that what was last written is lost with the writer, unless the
writer moved after it (`heapWrite_loses_nothing_iff`). Nor does anything in it flush the file, so that a write that
the device refuses is reported by a later call or by none.
-/

namespace Kobzar

open Bytes Reading Writer Overwriting

/-- `HeapWrite`: a buffered writer of the heap file. -/
structure HeapWrite where
  file : Overwriting.BufWriter U8
  deriving DecidableEq, Repr

namespace HeapWrite

/-- The capacity that `BufWriter::new` gives the buffer. -/
def capacity : Nat := 8192

/-- `HeapWrite::new`, of a file that has no failed write to report. -/
def new (file : Reading.File U8) : HeapWrite where
  file :=
    { file := { device := { sink := file, rooms := [], refused := 0 }, failed := false }
      buffer := []
      capacity := capacity
      seeking := none }

/-- The buffered writer, on a device that has so much room for the writes to come. -/
def on (this : HeapWrite) (rooms : List Room) : Overwriting.BufWriter U8 :=
  ⟨this.file.toBufWriter.on rooms, this.file.seeking⟩

/-- The result of an operation of the buffered writer as that of a method. -/
def outcome : Bool × Overwriting.BufWriter U8 → Except ReadError Unit × HeapWrite
  | (true, file) => (.ok (), { file })
  | (false, file) => (.error .device, { file })

/-- `position`, cut to the type of an offset. -/
def position (this : HeapWrite) (rooms : List Room) (grant : SeekGrant) : Except ReadError U32 × HeapWrite :=
  let (result, this) := outcome ((this.on rooms).seek none grant)
  (result.map fun _ => BitVec.ofNat 32 this.file.sink.pos, this)

/-- `move_to`. -/
def moveTo (this : HeapWrite) (offset : U32) (rooms : List Room) (grant : SeekGrant) :
    Except ReadError Unit × HeapWrite :=
  outcome ((this.on rooms).seek (some offset.toNat) grant)

/-- `self.file.write_all(bytes)`. -/
def writeBytes (this : HeapWrite) (bytes : List U8) (rooms : List Room) : Except ReadError Unit × HeapWrite :=
  let (done, inner) := (this.on rooms).writeAll bytes
  outcome (done, ⟨inner, this.file.seeking⟩)

/-- `write_bitmap`. -/
def writeBitmap (this : HeapWrite) (bitmap : List U8) : List Room → Except ReadError Unit × HeapWrite :=
  this.writeBytes bitmap

/-- `write_adt_variant`. -/
def writeAdtVariant (this : HeapWrite) (variant : U32) : List Room → Except ReadError Unit × HeapWrite :=
  this.writeBytes (toLe 4 variant.toNat)

/-- `write_blob_storable`: the offset, then the size. -/
def writeBlobStorable (this : HeapWrite) (blob : BlobStorable) (rooms rooms' : List Room) :
    Except ReadError Unit × HeapWrite :=
  match this.writeBytes (toLe 8 blob.blobOffset.toNat) rooms with
  | (.ok (), this) => this.writeBytes (toLe 8 blob.blobSize.toNat) rooms'
  | (.error e, this) => (.error e, this)

/-- `write_inline`. -/
def writeInline (this : HeapWrite) (buf : List U8) : List Room → Except ReadError Unit × HeapWrite :=
  this.writeBytes buf

/-- `store_hash`. -/
def storeHash (this : HeapWrite) (hash : BitVec 128) : List Room → Except ReadError Unit × HeapWrite :=
  this.writeBytes (toLe 16 hash.toNat)

/-- `store_blob_offset`. -/
def storeBlobOffset (this : HeapWrite) (offset : U64) : List Room → Except ReadError Unit × HeapWrite :=
  this.writeBytes (toLe 8 offset.toNat)

/-- The file that a dropped writer leaves: what is still in the buffer is discarded. -/
def dropped (this : HeapWrite) : Reading.File U8 := this.file.sink

/-- How many bytes the device refused. -/
def refused (this : HeapWrite) : Nat := this.file.refused

/-- Where the next byte is written. -/
def place (this : HeapWrite) : Nat := Overwriting.place this.file.toBufWriter

end HeapWrite

/-! ## Calls -/

/-- A call of a method of the writer, with the room that the device has for its writes, and the seeks that it makes. -/
inductive WriteCall where
  | position (rooms : List Room) (grant : SeekGrant)
  | moveTo (offset : U32) (rooms : List Room) (grant : SeekGrant)
  | writeBitmap (bitmap : List U8) (rooms : List Room)
  | writeAdtVariant (variant : U32) (rooms : List Room)
  | writeBlobStorable (blob : BlobStorable) (rooms rooms' : List Room)
  | writeInline (buf : List U8) (rooms : List Room)
  | storeHash (hash : BitVec 128) (rooms : List Room)
  | storeBlobOffset (offset : U64) (rooms : List Room)

namespace WriteCall

/-- The call of the method. -/
def run (this : HeapWrite) : WriteCall → Except ReadError Unit × HeapWrite
  | position rooms grant => ((this.position rooms grant).1.map fun _ => (), (this.position rooms grant).2)
  | moveTo offset rooms grant => this.moveTo offset rooms grant
  | writeBitmap bitmap rooms => this.writeBitmap bitmap rooms
  | writeAdtVariant variant rooms => this.writeAdtVariant variant rooms
  | writeBlobStorable blob rooms rooms' => this.writeBlobStorable blob rooms rooms'
  | writeInline buf rooms => this.writeInline buf rooms
  | storeHash hash rooms => this.storeHash hash rooms
  | storeBlobOffset offset rooms => this.storeBlobOffset offset rooms

/-- The bytes that a call writes. -/
def bytes : WriteCall → List U8
  | position .. | moveTo .. => []
  | writeBitmap bitmap _ => bitmap
  | writeAdtVariant variant _ => toLe 4 variant.toNat
  | writeBlobStorable blob _ _ => toLe 8 blob.blobOffset.toNat ++ toLe 8 blob.blobSize.toNat
  | writeInline buf _ => buf
  | storeHash hash _ => toLe 16 hash.toNat
  | storeBlobOffset offset _ => toLe 8 offset.toNat

/-- Where a call writes, or leaves the writer: at an offset it moves to, or where the writer is. -/
def target : WriteCall → Nat → Nat
  | moveTo offset _ _, _ => offset.toNat
  | _, place => place

end WriteCall

/-- Calls one after another, up to the first that fails. -/
def HeapWrite.runAll (this : HeapWrite) : List WriteCall → Except ReadError Unit × HeapWrite
  | [] => (.ok (), this)
  | call :: calls =>
    match call.run this with
    | (.ok (), this) => this.runAll calls
    | (.error e, this) => (.error e, this)

/-- Calls all succeed when the first one does, and then the others. -/
theorem HeapWrite.runAll_cons {this this' : HeapWrite} {call : WriteCall} {calls : List WriteCall}
    (h : this.runAll (call :: calls) = (.ok (), this')) :
    ∃ mid, call.run this = (.ok (), mid) ∧ mid.runAll calls = (.ok (), this') := by
  unfold runAll at h
  rcases hcall : call.run this with ⟨_ | _, mid⟩
  · rw [hcall] at h
    cases h
  · rw [hcall] at h
    exact ⟨mid, rfl, h⟩

/-! ## What a call does -/

/-- The result of a method is that of the operation. -/
theorem HeapWrite.outcome_eq (out : Bool × Overwriting.BufWriter U8) :
    (HeapWrite.outcome out).1.isOk = out.1 ∧ (HeapWrite.outcome out).2.file = out.2 := by
  rcases out with ⟨_ | _, file⟩ <;> exact ⟨rfl, rfl⟩

/-- A method that succeeds did so in the buffered writer. -/
theorem HeapWrite.outcome_ok {out : Bool × Overwriting.BufWriter U8} {this' : HeapWrite}
    (h : HeapWrite.outcome out = (.ok (), this')) : out = (true, this'.file) := by
  obtain ⟨done, file⟩ := out
  cases done <;> cases h
  rfl

/-- A call of `position` is a seek to where the writer is. -/
theorem WriteCall.run_position (this : HeapWrite) (rooms : List Room) (grant : SeekGrant) :
    WriteCall.run this (.position rooms grant) = HeapWrite.outcome ((this.on rooms).seek none grant) := by
  simp only [run, HeapWrite.position]
  rcases (this.on rooms).seek none grant with ⟨_ | _, file⟩ <;> rfl

/-- Bytes are given to the writer as far as the write comes, and all of them when it succeeds. -/
theorem HeapWrite.passes_writeBytes (this : HeapWrite) (bytes : List U8) (rooms : List Room) : ∃ n ≤ bytes.length,
    this.file.Passes (bytes.take n) (this.writeBytes bytes rooms).1.isOk
      (this.writeBytes bytes rooms).2.file.toBufWriter ∧
      (this.writeBytes bytes rooms).2.file.seeking = this.file.seeking ∧
      ((this.writeBytes bytes rooms).1.isOk = true → n = bytes.length) := by
  obtain ⟨n, hn, hpasses, hall⟩ := (this.on rooms).passes_writeAll bytes
  refine ⟨n, hn, ?_⟩
  rcases hwrite : (this.on rooms).writeAll bytes with ⟨done, inner⟩
  rw [hwrite] at hpasses hall
  simp only [writeBytes, hwrite, (outcome_eq _).1, (outcome_eq _).2]
  -- how much room there was before does not matter
  exact ⟨⟨hpasses.parts, hpasses.capacity, hpasses.clear, hpasses.sound⟩, trivial, hall⟩

/-- A call that does not seek, and gives its bytes to the writer as far as it comes. -/
def WriteCall.GivesBytes (call : WriteCall) (this : HeapWrite) : Prop :=
  ∃ n ≤ call.bytes.length, (∀ place, call.target place = place) ∧
    this.file.Passes (call.bytes.take n) (call.run this).1.isOk (call.run this).2.file.toBufWriter ∧
    (call.run this).2.file.seeking = this.file.seeking ∧ ((call.run this).1.isOk = true → n = call.bytes.length)

/-- What a call does: it seeks and writes nothing, or it gives its bytes to the writer. -/
theorem WriteCall.run_cases (call : WriteCall) (this : HeapWrite) :
    (∃ target rooms grant, call.bytes = [] ∧ (∀ place, call.target place = target.getD place) ∧
      call.run this = HeapWrite.outcome ((this.on rooms).seek target grant)) ∨ call.GivesBytes this := by
  have hbytes : ∀ bytes rooms, (∀ place, call.target place = place) → call.bytes = bytes →
      call.run this = this.writeBytes bytes rooms → call.GivesBytes this := by
    intro bytes rooms hstays hbytes hrun
    obtain ⟨n, hn, hwrite⟩ := this.passes_writeBytes bytes rooms
    rw [GivesBytes, hrun, hbytes]
    exact ⟨n, hn, hstays, hwrite⟩
  cases call with
  | position rooms grant => exact Or.inl ⟨none, rooms, grant, rfl, fun _ => rfl, run_position this rooms grant⟩
  | moveTo offset rooms grant => exact Or.inl ⟨some offset.toNat, rooms, grant, rfl, fun _ => rfl, rfl⟩
  | writeBitmap bitmap rooms => exact Or.inr (hbytes _ rooms (fun _ => rfl) rfl rfl)
  | writeAdtVariant variant rooms => exact Or.inr (hbytes _ rooms (fun _ => rfl) rfl rfl)
  | writeBlobStorable blob rooms rooms' =>
    refine Or.inr ?_
    obtain ⟨n, hn, hpasses, hseeking, hall⟩ := this.passes_writeBytes (toLe 8 blob.blobOffset.toNat) rooms
    simp only [GivesBytes, run, HeapWrite.writeBlobStorable, bytes, List.length_append]
    rcases hfirst : this.writeBytes (toLe 8 blob.blobOffset.toNat) rooms with ⟨_ | _, mid⟩ <;>
      rw [hfirst] at hpasses hseeking hall
    · refine ⟨n, Nat.le_add_right_of_le hn, fun _ => rfl, ?_, hseeking, fun h => by cases h⟩
      rwa [List.take_append_of_le_length hn]
    · obtain ⟨m, hm, hpasses', hseeking', hall'⟩ := mid.passes_writeBytes (toLe 8 blob.blobSize.toNat) rooms'
      have hboth := hpasses.trans hpasses'
      rw [hall rfl, List.take_length, ← List.take_length_add_append] at hboth
      exact ⟨_, Nat.add_le_add_left hm _, fun _ => rfl, hboth, hseeking'.trans hseeking, fun h => by rw [hall' h]⟩
  | writeInline buf rooms => exact Or.inr (hbytes _ rooms (fun _ => rfl) rfl rfl)
  | storeHash hash rooms => exact Or.inr (hbytes _ rooms (fun _ => rfl) rfl rfl)
  | storeBlobOffset offset rooms => exact Or.inr (hbytes _ rooms (fun _ => rfl) rfl rfl)

/-- A call gives back nothing that was refused. -/
theorem HeapWrite.refused_run (this : HeapWrite) (call : WriteCall) : this.refused ≤ (call.run this).2.refused := by
  rcases call.run_cases this with ⟨target, rooms, grant, -, -, hrun⟩ | ⟨n, -, -, hpasses, -⟩
  · rw [hrun, refused, refused, (outcome_eq _).2]
    exact (this.on rooms).refused_seek target grant
  · exact hpasses.refused_le

/-- No failed write is to be reported and no seek is left over. -/
def HeapWrite.Clear (this : HeapWrite) : Prop := this.file.failed = false ∧ this.file.seeking = none

/-- How much room there is for its writes does not make a writer clear. -/
theorem HeapWrite.Clear.on {this : HeapWrite} (h : this.Clear) (rooms : List Room) :
    (this.on rooms).failed = false ∧ (this.on rooms).seeking = none := h

/-- A call of a clear writer that the device refuses nothing of leaves it clear. -/
theorem HeapWrite.Clear.run {this : HeapWrite} (h : this.Clear) {call : WriteCall}
    (hkept : (call.run this).2.refused = this.refused) : (call.run this).2.Clear := by
  rcases call.run_cases this with ⟨target, rooms, grant, -, -, hrun⟩ | ⟨n, -, -, hpasses, hseeking, -⟩
  · rw [hrun, refused, (outcome_eq _).2] at hkept
    obtain ⟨inner, -, -, hclear, -, heq⟩ := BufWriter.seek_of_clear (h.on rooms).1 (h.on rooms).2 hkept
    rw [hrun, heq, Clear, (outcome_eq _).2]
    exact ⟨(sought_keeps inner target grant.asked).2.2.1.trans hclear, rfl⟩
  · exact ⟨(hpasses.sound h.1 hkept).2, hseeking.trans h.2⟩

/-! ## What was last written at each position -/

/-- The position that calls have come to, and the byte last written at each position. -/
structure Ledger where
  place : Nat
  last : Nat → Option U8

namespace Ledger

/-- Nothing was written by a new writer, which is where its file is. -/
def start (file : Reading.File U8) : Ledger where
  place := file.pos
  last _ := none

/-- One call that returns Ok. -/
def step (ledger : Ledger) (call : WriteCall) : Ledger where
  place := call.target ledger.place + call.bytes.length
  last := record ledger.last (call.target ledger.place) call.bytes

/-- Calls one after another, all of which return Ok. -/
def run (ledger : Ledger) (calls : List WriteCall) : Ledger := calls.foldl step ledger

/-- A clear writer keeps to a ledger: it is at its position, and each byte stands in the file or is held for its
position. -/
structure Kept (this : HeapWrite) (ledger : Ledger) : Prop where
  held : Held this.file.sink this.file.buffer ledger.last
  place : this.place = ledger.place
  clear : this.Clear

/-- A new writer keeps to the ledger of no call. -/
theorem kept_start (file : Reading.File U8) : Kept (HeapWrite.new file) (start file) where
  held := held_new file
  place := rfl
  clear := ⟨rfl, rfl⟩

variable {this this' : HeapWrite} {ledger : Ledger}

/-- A call that writes no byte leaves the ledger at its target. -/
theorem step_of_no_bytes {call : WriteCall} (hbytes : call.bytes = []) :
    ledger.step call = { ledger with place := call.target ledger.place } := by
  rw [step, hbytes, record_nil, List.length_nil, Nat.add_zero]

/-- A call that succeeds, when the device refuses nothing, keeps to the ledger. -/
theorem Kept.step (h : Kept this ledger) {call : WriteCall} (hok : call.run this = (.ok (), this'))
    (hkept : this'.refused = this.refused) : Kept this' (ledger.step call) := by
  have hclear := @HeapWrite.Clear.run _ h.clear call (by rw [hok]; exact hkept)
  rcases call.run_cases this with
    ⟨target, rooms, grant, hbytes, htarget, hrun⟩ | ⟨n, -, htarget, hpasses, -, hall⟩
  · rw [hok] at hrun hclear
    have heq := HeapWrite.outcome_eq ((this.on rooms).seek target grant)
    rw [← hrun] at heq
    obtain ⟨hgranted, hfile⟩ := heq
    have hkept' : ((this.on rooms).seek target grant).2.refused = (this.on rooms).refused := hfile ▸ hkept
    obtain ⟨hheld, -⟩ := BufWriter.held_seek (h.clear.on rooms).1 (h.clear.on rooms).2 hkept' h.held
    have hplace := BufWriter.place_seek (h.clear.on rooms).1 (h.clear.on rooms).2 hkept'
    have hasked : grant.asked = true := by
      obtain ⟨inner, -, -, -, -, hresult⟩ := BufWriter.seek_of_clear (h.clear.on rooms).1 (h.clear.on rooms).2 hkept'
      rw [hresult] at hgranted
      exact hgranted.symm
    rw [← hfile] at hheld hplace
    rw [hasked, if_pos rfl] at hplace
    rw [step_of_no_bytes hbytes, htarget, ← h.place]
    exact ⟨hheld, hplace, hclear⟩
  · rw [hok] at hpasses hall hclear
    have hheld := h.held.passes hpasses hkept
    have hplace := place_passes hpasses hkept
    have hat : Overwriting.place this.file.toBufWriter = ledger.place := h.place
    rw [hall rfl, List.take_length, hat] at hheld hplace
    exact ⟨by rw [Ledger.step, htarget]; exact hheld, by rw [Ledger.step, htarget]; exact hplace, hclear⟩

/-- Calls that all succeed give back nothing that was refused. -/
theorem refused_runAll {calls : List WriteCall} (hok : this.runAll calls = (.ok (), this')) :
    this.refused ≤ this'.refused := by
  induction calls generalizing this with
  | nil =>
    cases hok
    exact Nat.le_refl _
  | cons call calls ih =>
    obtain ⟨mid, hcall, hcalls⟩ := HeapWrite.runAll_cons hok
    have hle := this.refused_run call
    rw [hcall] at hle
    exact Nat.le_trans hle (ih hcalls)

/-- Calls that all succeed, when the device refuses nothing, keep to the ledger. -/
theorem Kept.run (h : Kept this ledger) {calls : List WriteCall} (hok : this.runAll calls = (.ok (), this'))
    (hkept : this'.refused = this.refused) : Kept this' (ledger.run calls) := by
  induction calls generalizing this ledger with
  | nil =>
    cases hok
    exact h
  | cons call calls ih =>
    obtain ⟨mid, hcall, hcalls⟩ := HeapWrite.runAll_cons hok
    have hle : this.refused ≤ mid.refused := by
      have hrun := this.refused_run call
      rwa [hcall] at hrun
    have hle' := refused_runAll hcalls
    exact ih (h.step hcall (by omega)) hcalls (by omega)

end Ledger

/-- When no acknowledged write is lost, on a device that refuses none: after calls that all return Ok, the file of
the dropped writer has at every position the byte last written there exactly when the bytes still in the buffer
stand in the file already, at the position they were to be written at; so when there are none, as after a move. -/
theorem heapWrite_loses_nothing_iff (file : Reading.File U8) (calls : List WriteCall) {this : HeapWrite}
    (hok : (HeapWrite.new file).runAll calls = (.ok (), this)) (htaken : this.refused = 0) :
    (∀ i byte, ((Ledger.start file).run calls).last i = some byte → this.dropped.contents[i]? = some byte) ↔
      (this.dropped.contents.drop this.dropped.pos).take this.file.buffer.length = this.file.buffer :=
  ((Ledger.kept_start file).run hok htaken).held.dropped_iff

/-! ### One variant written to an empty file -/

/-- A file that holds nothing. -/
def noBytes : Reading.File U8 := { contents := [], pos := 0 }

/-- A device that makes every seek. -/
def grantSeek : SeekGrant where
  leftover := true
  asked := true

/-- The position is asked for after the write: the variant is in the file. -/
theorem heapWrite_loses_nothing_position :
    ((HeapWrite.new noBytes).runAll [.writeAdtVariant 7 [], .position [] grantSeek]).2.dropped.contents = [7, 0, 0, 0] ∧
      ∀ i byte, ((Ledger.start noBytes).run [.writeAdtVariant 7 [], .position [] grantSeek]).last i = some byte →
        ((HeapWrite.new noBytes).runAll [.writeAdtVariant 7 [], .position [] grantSeek]).2.dropped.contents[i]? =
          some byte :=
  ⟨by decide +kernel, (heapWrite_loses_nothing_iff noBytes [.writeAdtVariant 7 [], .position [] grantSeek]
    (Prod.ext (show _ = Except.ok () by decide +kernel) rfl) (by decide +kernel)).mpr (by decide +kernel)⟩

/-- Dropped right after the write, which returned Ok, the writer leaves the file empty. -/
theorem heapWrite_loses_variant :
    ((HeapWrite.new noBytes).runAll [.writeAdtVariant 7 []]).1 = .ok () ∧
      ((Ledger.start noBytes).run [.writeAdtVariant 7 []]).last 0 = some 7 ∧
      ((HeapWrite.new noBytes).runAll [.writeAdtVariant 7 []]).2.dropped.contents = [] := by
  decide +kernel

/-- The device takes one byte of the variant: the position is told all the same, and the next call that hands
anything on fails. -/
example :
    let this := ((HeapWrite.new noBytes).runAll [.writeAdtVariant 7 [], .position [some 1] grantSeek]).2
    this.dropped.contents = [7] ∧ this.refused = 3 ∧ this.file.buffer = [] ∧
      (this.runAll [.writeAdtVariant 7 [], .position [] grantSeek]).1 = .error .device := by
  decide +kernel

end Kobzar
