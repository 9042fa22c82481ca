import Kobzar.Library.Reading
import Kobzar.Schema.Records

/-!
# The schema file reader

`Read` moves to a record and reads its header (`gotoRecordRead`), then the records behind it one after another. The
move goes through the buffer and empties it, so that a read takes its bytes from where the reader is meant to be
(`schema_reads_in_place`), and what was laid down is what is read (`schema_round_trip`).
-/

namespace Kobzar.Schema

open CLayout Reading

/-- `Read`: a buffered reader of the schema file. -/
structure Read where
  file : BufReader U8
  deriving DecidableEq, Repr

/-- What a method leaves: its result, how many bytes it consumed, and the reader. -/
structure ReadResult (β : Type) where
  result : Except ReadError β
  consumed : Nat
  reader : Read

namespace Read

/-- The capacity that `BufReader::new` gives the buffer. -/
def capacity : Nat := 8192

/-- `Read::new`. -/
def new (file : File U8) : Read where
  file := { file, buffer := [] }

/-- `into_inner`: the file, wherever reading ahead has left it. -/
def intoInner (this : Read) : File U8 := this.file.file

/-- `read!`: as many bytes as a type has, taken for a value of the type. -/
def readValue {β : Type} (size : Nat) (transmute : List U8 → β) (this : Read) (grants : Nat → Grant) :
    ReadResult β :=
  let out := Reading.readExact (BufReader.read capacity) size grants this.file
  { result := match out.error with
      | some error => .error error
      | none => .ok (transmute out.taken)
    consumed := out.taken.length
    reader := { file := out.source } }

/-- `goto_record_read`; the file may refuse to seek. -/
def gotoRecordRead (this : Read) (offset : U64) (granted : Bool) (grants : Nat → Grant) : ReadResult RecordHeader :=
  match this.file.seek offset.toNat granted with
  | (true, file) => readValue (numbersSize RecordHeader.widths) RecordHeader.ofBytes { file } grants
  | (false, file) => { result := .error .device, consumed := 0, reader := { file } }

/-- `read_adt_variant`. -/
def readAdtVariant : Read → (Nat → Grant) → ReadResult AdtVariant :=
  readValue (numbersSize AdtVariant.widths) AdtVariant.ofBytes

/-- `read_field_count`. -/
def readFieldCount : Read → (Nat → Grant) → ReadResult FieldCount :=
  readValue (numbersSize FieldCount.widths) FieldCount.ofBytes

/-- `read_field`. -/
def readField : Read → (Nat → Grant) → ReadResult Field := readValue (numbersSize Field.widths) Field.ofBytes

end Read

/-! ## Calls -/

/-- A call of a method of the reader, with what the system grants it. -/
inductive ReadCall where
  | gotoRecordRead (offset : U64) (granted : Bool) (grants : Nat → Grant)
  | readAdtVariant (grants : Nat → Grant)
  | readFieldCount (grants : Nat → Grant)
  | readField (grants : Nat → Grant)

/-- A record that is read from where the reader is. -/
inductive Item where
  | adtVariant (read : AdtVariant)
  | fieldCount (read : FieldCount)
  | field (read : Field)
  deriving DecidableEq, Repr

/-- What a call that succeeds gives. -/
inductive Record where
  | header (read : RecordHeader)
  | item (read : Item)
  deriving DecidableEq, Repr

/-- The result of a call as one of all calls. -/
def ReadResult.map {β : Type} (out : ReadResult β) (f : β → Record) : ReadResult Record :=
  { out with result := f <$> out.result }

namespace ReadCall

/-- The call of the method. -/
def run (this : Read) : ReadCall → ReadResult Record
  | gotoRecordRead offset granted grants => (this.gotoRecordRead offset granted grants).map .header
  | readAdtVariant grants => (this.readAdtVariant grants).map fun read => .item (.adtVariant read)
  | readFieldCount grants => (this.readFieldCount grants).map fun read => .item (.fieldCount read)
  | readField grants => (this.readField grants).map fun read => .item (.field read)

/-- How many bytes a call asks for. -/
def size : ReadCall → Nat
  | gotoRecordRead .. => numbersSize RecordHeader.widths
  | readAdtVariant _ => numbersSize AdtVariant.widths
  | readFieldCount _ => numbersSize FieldCount.widths
  | readField _ => numbersSize Field.widths

/-- What a call gives that reads these bytes. -/
def recordOf : ReadCall → List U8 → Record
  | gotoRecordRead .., bytes => .header (RecordHeader.ofBytes bytes)
  | readAdtVariant _, bytes => .item (.adtVariant (AdtVariant.ofBytes bytes))
  | readFieldCount _, bytes => .item (.fieldCount (FieldCount.ofBytes bytes))
  | readField _, bytes => .item (.field (Field.ofBytes bytes))

/-- What the system grants to the reads of a call. -/
def grants : ReadCall → Nat → Grant
  | gotoRecordRead _ _ grants | readAdtVariant grants | readFieldCount grants | readField grants => grants

/-- Where a call is meant to read, of a reader that is meant to be at a place: a jump, unless it is refused, reads at its
offset. -/
def startsAt (place : Nat) : ReadCall → Nat
  | gotoRecordRead offset true _ => offset.toNat
  | _ => place

/-- The reader that a call takes its bytes from: a jump, unless it is refused, moves first. -/
def moved (this : Read) : ReadCall → Read
  | gotoRecordRead offset true _ => { file := (this.file.seek offset.toNat true).2 }
  | _ => this

/-- The file refuses to seek. -/
def refused : ReadCall → Bool
  | gotoRecordRead _ granted _ => !granted
  | _ => false

/-- A call is refused and does nothing, or it reads its bytes from the reader it has moved. -/
theorem run_cases (this : Read) (call : ReadCall) :
    (call.refused = true ∧ call.run this = { result := .error .device, consumed := 0, reader := this } ∧
        ∀ place, call.startsAt place = place) ∨
      (call.refused = false ∧ call.run this = (call.moved this).readValue call.size call.recordOf call.grants) := by
  have hmap {β : Type} (this : Read) (size : Nat) (f : List U8 → β) (grants : Nat → Grant) (g : β → Record) :
      (this.readValue size f grants).map g = this.readValue size (fun bytes => g (f bytes)) grants := by
    simp only [ReadResult.map, Read.readValue]
    cases (Reading.readExact (BufReader.read Read.capacity) size grants this.file).error <;> rfl
  cases call with
  | gotoRecordRead offset granted grants =>
    cases granted with
    | false => exact Or.inl ⟨rfl, rfl, fun _ => rfl⟩
    | true => exact Or.inr ⟨rfl, hmap _ _ _ _ _⟩
  | readAdtVariant grants => exact Or.inr ⟨rfl, hmap _ _ _ _ _⟩
  | readFieldCount grants => exact Or.inr ⟨rfl, hmap _ _ _ _ _⟩
  | readField grants => exact Or.inr ⟨rfl, hmap _ _ _ _ _⟩

end ReadCall

/-! ## Where a read takes its bytes from -/

/-- A reader of a file with these contents stands at a place: what is to come is what stands there. -/
structure Read.At (contents : List U8) (place : Nat) (this : Read) : Prop where
  contents_eq : this.file.file.contents = contents
  rest_eq : this.file.rest = contents.drop place

namespace Read.At

variable {contents : List U8} {place : Nat} {this : Read}

/-- A new reader stands where its file does. -/
theorem new (file : File U8) : At file.contents file.pos (Read.new file) := ⟨rfl, rfl⟩

/-- A jump moves the reader to its offset; another call leaves it where it is. -/
theorem moved (h : At contents place this) (call : ReadCall) : At contents (call.startsAt place) (call.moved this) := by
  unfold ReadCall.startsAt ReadCall.moved
  split
  · obtain ⟨hrest, hcontents⟩ := this.file.rest_seek _
    exact ⟨hcontents.trans h.contents_eq, hrest.trans (by rw [h.contents_eq])⟩
  · exact h

/-- A read leaves the reader right behind the bytes it consumed, whether they were enough or not. -/
theorem readValue {β : Type} (h : At contents place this) (size : Nat) (transmute : List U8 → β)
    (grants : Nat → Grant) :
    At contents (place + (this.readValue size transmute grants).consumed)
      (this.readValue size transmute grants).reader := by
  have hd := BufReader.read_delivers capacity contents
  refine ⟨(hd.readExactFrom size size grants this.file h.contents_eq).1, ?_⟩
  rw [← List.drop_drop, ← h.rest_eq]
  exact hd.rest_readExact_taken size grants h.contents_eq

/-- A read that succeeds gives the value of the bytes at the place, and consumes these. -/
theorem readValue_ok {β : Type} (h : At contents place this) {size : Nat} {transmute : List U8 → β}
    {grants : Nat → Grant} {value : β} (hok : (this.readValue size transmute grants).result = .ok value) :
    size ≤ (contents.drop place).length ∧ value = transmute ((contents.drop place).take size) ∧
      (this.readValue size transmute grants).consumed = size := by
  have hd := BufReader.read_delivers capacity contents
  unfold Read.readValue at hok ⊢
  rcases herror : (Reading.readExact (BufReader.read capacity) size grants this.file).error with _ | error
  · obtain ⟨htaken, hlen⟩ := hd.readExact_ok h.contents_eq herror
    simp only [herror] at hok
    rw [h.rest_eq] at htaken hlen
    exact ⟨hlen, by rw [← Except.ok.inj hok, htaken],
      hd.readExactFrom_length (Nat.le_refl size) h.contents_eq herror⟩
  · simp only [herror] at hok
    cases hok

/-- A read of which no part fails, of a record that stands whole at the place, gives it. -/
theorem readValue_of_drop {β : Type} (h : At contents place this) {bytes back : List U8}
    (hdrop : contents.drop place = bytes ++ back) (transmute : List U8 → β) {grants : Nat → Grant}
    (hgrants : ∀ k, (grants k).isSome) :
    (this.readValue bytes.length transmute grants).result = .ok (transmute bytes) := by
  have hd := BufReader.read_delivers capacity contents
  have hlen : bytes.length ≤ this.file.rest.length := by
    rw [h.rest_eq, hdrop, List.length_append]
    exact Nat.le_add_right _ _
  have herror : (Reading.readExact (BufReader.read capacity) bytes.length grants this.file).error = none :=
    hd.readExactFrom_error (BufReader.read_serves capacity) hgrants h.contents_eq hlen
  have htaken := (hd.readExact_ok h.contents_eq herror).1
  rw [h.rest_eq, hdrop, List.take_left] at htaken
  simp only [Read.readValue, herror, htaken]

/-- A call leaves the reader right behind the bytes it consumed from where it is meant to read. -/
theorem run (h : At contents place this) (call : ReadCall) :
    At contents (call.startsAt place + (call.run this).consumed) (call.run this).reader := by
  rcases call.run_cases this with ⟨-, hrefused, hstays⟩ | ⟨-, hread⟩
  · rw [hrefused, hstays]
    exact h
  · rw [hread]
    exact (h.moved call).readValue _ _ _

end Read.At

/-- A reader with the place it is meant to be at. -/
structure ReadCursor where
  reader : Read
  place : Nat

namespace ReadCursor

/-- A new reader is meant to be where its file is. -/
def start (file : File U8) : ReadCursor where
  reader := Read.new file
  place := file.pos

/-- One call: the place is moved on by what is consumed of where the call is meant to read. -/
def step (c : ReadCursor) (call : ReadCall) : ReadCursor where
  reader := (call.run c.reader).reader
  place := call.startsAt c.place + (call.run c.reader).consumed

/-- The calls one after another. -/
def run (c : ReadCursor) (calls : List ReadCall) : ReadCursor := calls.foldl step c

/-- The reader is where it is meant to be after every run. -/
theorem at_run (file : File U8) (calls : List ReadCall) :
    Read.At file.contents ((start file).run calls).place ((start file).run calls).reader :=
  List.foldlRecOn (motive := fun c => Read.At file.contents c.place c.reader) calls step (Read.At.new file)
    fun _ h call _ => h.run call

end ReadCursor

/-- After any calls, of which any may have failed, a call that succeeds gives the record of the bytes that stand
where it is meant to read: at the offset it jumps to, or behind those consumed since the last jump. -/
theorem schema_reads_in_place (file : File U8) (calls : List ReadCall) (call : ReadCall) (record : Record)
    (hok : (call.run ((ReadCursor.start file).run calls).reader).result = .ok record) :
    let place := call.startsAt ((ReadCursor.start file).run calls).place
    call.size ≤ (file.contents.drop place).length ∧
      record = call.recordOf ((file.contents.drop place).take call.size) ∧
      ((ReadCursor.start file).run (calls ++ [call])).place = place + call.size := by
  have hrun : (ReadCursor.start file).run (calls ++ [call]) = ((ReadCursor.start file).run calls).step call :=
    List.foldl_append
  have h := ReadCursor.at_run file calls
  rw [hrun]
  rcases call.run_cases ((ReadCursor.start file).run calls).reader with ⟨-, hrefused, -⟩ | ⟨-, hread⟩
  · rw [hrefused] at hok
    cases hok
  · rw [hread] at hok
    obtain ⟨hlen, hrecord, hconsumed⟩ := (h.moved call).readValue_ok hok
    refine ⟨hlen, hrecord, ?_⟩
    rw [ReadCursor.step, hread, hconsumed]

/-- A schema file of the bytes `0` to `59`, opened at its start. -/
def sixtyBytes : File U8 where
  contents := (List.range 60).map (BitVec.ofNat 8)
  pos := 0

/-- A system that gives no more than three bytes at a time. -/
def grantThree : Nat → Grant := fun _ => some 2

/-- After a jump and another that is refused, the field count is read from behind the header that was read. -/
theorem schema_reads_in_place_after_jumps : Record.item (.fieldCount ⟨0x1514⟩) =
    (ReadCall.readFieldCount grantThree).recordOf ((sixtyBytes.contents.drop 20).take 2) :=
  (schema_reads_in_place sixtyBytes [.gotoRecordRead 4 true grantThree, .gotoRecordRead 40 false grantThree]
    (.readFieldCount grantThree) (.item (.fieldCount ⟨0x1514⟩)) (by decide)).2.1

/-! ## What was laid down is read -/

/-- The bytes of a header. -/
def RecordHeader.image (pad : Nat → U8) (header : RecordHeader) : List U8 :=
  encodeNumbers pad RecordHeader.widths header.numbers

namespace Item

/-- The bytes of a record. -/
def image (pad : Nat → U8) : Item → List U8
  | adtVariant read => encodeNumbers pad AdtVariant.widths read.numbers
  | fieldCount read => encodeNumbers pad FieldCount.widths read.numbers
  | field read => encodeNumbers pad Field.widths read.numbers

/-- The call that reads a record. -/
def call (grants : Nat → Grant) : Item → ReadCall
  | adtVariant _ => .readAdtVariant grants
  | fieldCount _ => .readFieldCount grants
  | field _ => .readField grants

/-- The call that reads a record reads it where the reader is. -/
theorem call_stays (grants : Nat → Grant) (item : Item) :
    (item.call grants).refused = false ∧ (∀ place, (item.call grants).startsAt place = place) ∧
      (item.call grants).grants = grants := by
  cases item <;> exact ⟨rfl, fun _ => rfl, rfl⟩

/-- The call that reads a record takes as many bytes as it has. -/
theorem size_call (pad : Nat → U8) (grants : Nat → Grant) (item : Item) :
    (item.call grants).size = (item.image pad).length := by
  cases item with
  | adtVariant read => exact (length_encodeNumbers pad read.fits).symm
  | fieldCount read => exact (length_encodeNumbers pad read.fits).symm
  | field read => exact (length_encodeNumbers pad read.fits).symm

/-- The call that reads a record takes its bytes for the record. -/
theorem recordOf_image (pad : Nat → U8) (grants : Nat → Grant) (item : Item) :
    (item.call grants).recordOf (item.image pad) = .item item := by
  cases item with
  | adtVariant read => simp [call, ReadCall.recordOf, image, AdtVariant.ofBytes_encode]
  | fieldCount read => simp [call, ReadCall.recordOf, image, FieldCount.ofBytes_encode]
  | field read => simp [call, ReadCall.recordOf, image, Field.ofBytes_encode]

end Item

/-- A record as it is laid down, with its padding, and what the system grants when it is read. -/
structure Laid where
  item : Item
  pad : Nat → U8
  grants : Nat → Grant

/-- The bytes of a record laid down. -/
def Laid.image (laid : Laid) : List U8 := laid.item.image laid.pad

/-- The results of calls one after another. -/
def Read.results (this : Read) : List ReadCall → List (Except ReadError Record)
  | [] => []
  | call :: calls => (call.run this).result :: (call.run this).reader.results calls

/-- A call of which no part fails, where the bytes it takes stand, gives their record and leaves the reader behind
them. -/
theorem Read.At.run_of_drop {contents : List U8} {place : Nat} {this : Read} {call : ReadCall}
    (h : At contents place (call.moved this)) (hgranted : call.refused = false) (hgrants : ∀ k, (call.grants k).isSome)
    {bytes back : List U8} (hdrop : contents.drop place = bytes ++ back) (hsize : call.size = bytes.length) :
    (call.run this).result = .ok (call.recordOf bytes) ∧ At contents (place + bytes.length) (call.run this).reader ∧
      contents.drop (place + bytes.length) = back := by
  rcases call.run_cases this with ⟨hrefused, -⟩ | ⟨-, hread⟩
  · rw [hgranted] at hrefused
    cases hrefused
  · have hok := h.readValue_of_drop hdrop call.recordOf hgrants
    have hat := h.readValue bytes.length call.recordOf call.grants
    rw [(h.readValue_ok hok).2.2] at hat
    rw [hread, hsize]
    exact ⟨hok, hat, by rw [← List.drop_drop, hdrop, List.drop_left]⟩

/-- Records that stand one behind another where the reader is are read. -/
theorem Read.At.results {contents : List U8} {place : Nat} {this : Read} (h : At contents place this) {laid : List Laid}
    {back : List U8} (hdrop : contents.drop place = laid.flatMap Laid.image ++ back)
    (hgrants : ∀ l ∈ laid, ∀ k, (l.grants k).isSome) :
    this.results (laid.map fun l => l.item.call l.grants) = laid.map fun l => .ok (.item l.item) := by
  induction laid generalizing place this with
  | nil => rfl
  | cons l laid ih =>
    obtain ⟨hfirst, hrest⟩ := List.forall_mem_cons.mp hgrants
    obtain ⟨hgranted, hstarts, hsame⟩ := l.item.call_stays l.grants
    rw [List.flatMap_cons, List.append_assoc] at hdrop
    have hmoved := h.moved (l.item.call l.grants)
    rw [hstarts] at hmoved
    rw [← hsame] at hfirst
    obtain ⟨hok, hat, hback⟩ := hmoved.run_of_drop hgranted hfirst hdrop (l.item.size_call l.pad l.grants)
    have hrecord : (l.item.call l.grants).recordOf l.image = .item l.item := l.item.recordOf_image l.pad l.grants
    rw [List.map_cons, Read.results, hok, ih hat hback hrest, hrecord, List.map_cons]

/-- From whatever state, with whatever read ahead: when a header and records, laid down one behind another with any
padding, stand at an offset and no part of a read fails, moving there and reading gives them. -/
theorem schema_round_trip (this : Read) (offset : U64) (header : RecordHeader) (pad : Nat → U8) (grants : Nat → Grant)
    (laid : List Laid) (back : List U8)
    (hdrop : this.file.file.contents.drop offset.toNat = header.image pad ++ (laid.flatMap Laid.image ++ back))
    (hgrants : ∀ k, (grants k).isSome) (hlaid : ∀ l ∈ laid, ∀ k, (l.grants k).isSome) :
    this.results (.gotoRecordRead offset true grants :: laid.map fun l => l.item.call l.grants) =
      .ok (.header header) :: laid.map fun l => .ok (.item l.item) := by
  obtain ⟨hrest, hcontents⟩ := this.file.rest_seek offset.toNat
  have hmoved : Read.At this.file.file.contents offset.toNat ((ReadCall.gotoRecordRead offset true grants).moved this) :=
    ⟨hcontents, hrest⟩
  have hsize : (ReadCall.gotoRecordRead offset true grants).size = (header.image pad).length :=
    (length_encodeNumbers pad header.fits).symm
  have hrecord : (ReadCall.gotoRecordRead offset true grants).recordOf (header.image pad) = .header header := by
    simp [ReadCall.recordOf, RecordHeader.image, RecordHeader.ofBytes_encode]
  obtain ⟨hok, hat, hback⟩ := hmoved.run_of_drop rfl hgrants hdrop hsize
  rw [Read.results, hok, hat.results hback hlaid, hrecord]

/-- A header of a record with no comment. -/
def plainHeader : RecordHeader where
  commentOffset := 0xffffffffffffffff
  adtVariantCount := 0
  tablespaceId := 7

/-- A reader that has read bytes ahead elsewhere in a file where a header and a field count stand at the offset `3`. -/
def readerAhead : Read where
  file :=
    { file := { contents := [9, 9, 9] ++ (plainHeader.image (fun _ => 0) ++ ([5, 0] ++ [9])), pos := 22 }
      buffer := [1, 2, 3] }

/-- What was read ahead does not get into the header and the field count that are read. -/
theorem schema_round_trip_ahead :
    readerAhead.results [.gotoRecordRead 3 true grantThree, .readFieldCount grantThree] =
      [.ok (.header plainHeader), .ok (.item (.fieldCount ⟨5⟩))] :=
  schema_round_trip readerAhead 3 plainHeader (fun _ => 0) grantThree [⟨.fieldCount ⟨5⟩, fun _ => 0, grantThree⟩] [9]
    (by decide) (fun _ => rfl) (by simp [grantThree])

end Kobzar.Schema
