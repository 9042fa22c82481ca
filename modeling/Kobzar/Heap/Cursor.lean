import Kobzar.Heap.Read

/-!
# Where a heap read takes its bytes from

A reader is followed through its calls together with the position it is meant to be at: the offset of the last jump
and the bytes consumed since. The jump does not empty the buffer and the reads past the buffer do not know of it,
so that a read takes its bytes from that position only when the file, or the buffer, stands there.
-/

namespace Kobzar

open Reading

/-! ## Calls -/

/-- A call of a method of the reader, with what the system grants it. -/
inductive HeapCall where
  | gotoRecordAt (offset : U32) (granted : Bool)
  | readBitmap (len : Nat) (grants : Nat → Grant)
  | adtVariant (grants : Nat → Grant)
  | readBlobStorable (grants : Nat → Grant)
  | readInline (len : Nat) (grants : Nat → Grant)

/-- What a call that succeeds gives. -/
inductive HeapValue where
  | moved
  | bytes (read : List U8)
  | variant (read : U32)
  | blob (read : BlobStorable)
  deriving DecidableEq, Repr

/-- The result of a call as one of all calls. -/
def HeapResult.map {β : Type} (out : HeapResult β) (f : β → HeapValue) : HeapResult HeapValue :=
  { out with result := f <$> out.result }

/-- The result of a call among those of all calls. -/
theorem HeapResult.map_ok {β : Type} {out : HeapResult β} {f : β → HeapValue} {value : HeapValue}
    (h : (out.map f).result = .ok value) : ∃ b, out.result = .ok b ∧ f b = value := by
  unfold HeapResult.map at h
  cases hout : out.result with
  | error e =>
    rw [hout] at h
    cases h
  | ok b =>
    rw [hout] at h
    exact ⟨b, rfl, Except.ok.inj h⟩

namespace HeapCall

/-- The call of the method. -/
def run (this : HeapRead) : HeapCall → HeapResult HeapValue
  | gotoRecordAt offset granted => (this.gotoRecordAt offset granted).map fun _ => .moved
  | readBitmap len grants => (this.readBitmap len grants).map .bytes
  | adtVariant grants => (this.adtVariant grants).map .variant
  | readBlobStorable grants => (this.readBlobStorable grants).map .blob
  | readInline len grants => (this.readInline len grants).map .bytes

/-- How many bytes a call asks for. -/
def size : HeapCall → Nat
  | gotoRecordAt .. => 0
  | readBitmap len _ => len
  | adtVariant _ => 4
  | readBlobStorable _ => 16
  | readInline len _ => len

/-- What a call gives that reads these bytes. -/
def valueOf (bytes : List U8) : HeapCall → HeapValue
  | gotoRecordAt .. => .moved
  | readBitmap .. => .bytes bytes
  | adtVariant _ => .variant (HeapRead.asVariant bytes)
  | readBlobStorable _ => .blob (HeapRead.asBlobStorable bytes)
  | readInline .. => .bytes bytes

end HeapCall

/-! ## The position followed -/

/-- A reader with the position it is meant to be at, and the place its file was read up to when it was last read into the
buffer. -/
structure HeapCursor where
  reader : HeapRead
  logical : Nat
  readUpTo : Nat

namespace HeapCursor

/-- A new reader is meant to be where its file is. -/
def start (file : File U8) : HeapCursor where
  reader := HeapRead.new file
  logical := file.pos
  readUpTo := file.pos

/-- One call: a jump that succeeds moves the position to its offset, a read moves it on by what it consumed. -/
def step (c : HeapCursor) (call : HeapCall) : HeapCursor :=
  let out := call.run c.reader
  match call with
  | .gotoRecordAt offset _ =>
    { c with reader := out.reader, logical := if out.result.isOk then offset.toNat else c.logical }
  | .readBitmap .. | .readInline .. => { c with reader := out.reader, logical := c.logical + out.consumed }
  | .adtVariant _ | .readBlobStorable _ =>
    { reader := out.reader
      logical := c.logical + out.consumed
      readUpTo := if c.reader.file.buffer.length < call.size then out.reader.file.file.pos else c.readUpTo }

/-- The calls one after another. -/
def run (c : HeapCursor) (calls : List HeapCall) : HeapCursor := calls.foldl step c

/-- The file stands at the position, if any byte is asked for at all. -/
def AlignedFile (c : HeapCursor) (len : Nat) : Prop := len = 0 ∨ c.reader.file.file.pos = c.logical

/-- What is in the buffer was read ahead from the position, and when that is not enough the file stands right
behind it. -/
def AlignedBuffer (c : HeapCursor) (size : Nat) : Prop :=
  (c.reader.file.buffer = [] ∨ c.readUpTo = c.logical + c.reader.file.buffer.length) ∧
    (size ≤ c.reader.file.buffer.length ∨ c.reader.file.file.pos = c.logical + c.reader.file.buffer.length)

/-- What a call reads from stands at the position. -/
def Aligned (c : HeapCursor) : HeapCall → Prop
  | .gotoRecordAt .. => True
  | .readBitmap len _ => c.AlignedFile len
  | .adtVariant _ => c.AlignedBuffer 4
  | .readBlobStorable _ => c.AlignedBuffer 16
  | .readInline len _ => c.AlignedFile len

/-! ## What every run keeps -/

/-- The file has the contents it had, and what is in the buffer is what stands before the place the file was read
up to. -/
structure Follows (contents : List U8) (c : HeapCursor) : Prop where
  contents : c.reader.file.file.contents = contents
  readUpTo : c.reader.file.ReadUpTo c.readUpTo

/-- A new reader has nothing in the buffer. -/
theorem follows_start (file : File U8) : Follows file.contents (start file) where
  contents := rfl
  readUpTo := BufReader.readUpTo_of_empty rfl _

/-- A read past the buffer leaves the buffer as it is. -/
theorem Follows.readRaw {contents : List U8} {c : HeapCursor} (h : Follows contents c) (text : String) (len : Nat)
    (grants : Nat → Grant) (logical : Nat) :
    Follows contents { c with reader := (c.reader.readRaw text len grants).reader, logical } := by
  obtain ⟨hbuffer, hcontents⟩ := c.reader.readRaw_file text len grants
  refine ⟨hcontents.trans h.contents, ?_⟩
  simp only [BufReader.ReadUpTo, hbuffer, hcontents]
  exact h.readUpTo

/-- A read through the buffer fills it, if at all, from the position of the file. -/
theorem Follows.readValue {contents : List U8} {c : HeapCursor} (h : Follows contents c) {β : Type} (size : Nat)
    (transmute : List U8 → β) (grants : Nat → Grant) (logical : Nat) :
    Follows contents
      { reader := (c.reader.readValue size transmute grants).reader
        logical
        readUpTo := if c.reader.file.buffer.length < size then
          (c.reader.readValue size transmute grants).reader.file.file.pos else c.readUpTo } where
  contents := (c.reader.readValue_contents size transmute grants).trans h.contents
  readUpTo := by
    split
    · rename_i hlt
      exact HeapRead.readUpTo_readValue_of_lt transmute grants hlt
    · rename_i hle
      exact HeapRead.readUpTo_readValue_of_le transmute grants (Nat.le_of_not_lt hle) h.readUpTo

/-- Every call keeps this, wherever it reads from. -/
theorem Follows.step {contents : List U8} {c : HeapCursor} (h : Follows contents c) (call : HeapCall) :
    Follows contents (c.step call) := by
  cases call with
  | gotoRecordAt offset granted =>
    cases granted with
    | false => exact ⟨h.contents, h.readUpTo⟩
    | true => exact ⟨h.contents, h.readUpTo⟩
  | readBitmap len grants => exact h.readRaw "short bitmap read" len grants _
  | adtVariant grants => exact h.readValue 4 HeapRead.asVariant grants _
  | readBlobStorable grants => exact h.readValue 16 HeapRead.asBlobStorable grants _
  | readInline len grants => exact h.readRaw "short inline read" len grants _

/-- Every run keeps it. -/
theorem follows_run (file : File U8) (calls : List HeapCall) : Follows file.contents ((start file).run calls) :=
  List.foldlRecOn calls HeapCursor.step (follows_start file) fun _ h call _ => h.step call

/-! ## Where an aligned read takes its bytes from -/

variable {contents : List U8} {c : HeapCursor}

/-- With the buffer aligned, what is to come starts with what stands at the position, as far as a read goes. -/
theorem Follows.rest_of_aligned (h : Follows contents c) {size : Nat} (ha : c.AlignedBuffer size) :
    c.reader.file.rest.take size = (contents.drop c.logical).take size ∧
      (size ≤ c.reader.file.rest.length → size ≤ (contents.drop c.logical).length) := by
  obtain ⟨hle, hdrop⟩ := h.readUpTo
  obtain ⟨hbuffer, hfile⟩ := ha
  rw [h.contents] at hdrop
  have hplace : contents.drop c.logical =
      c.reader.file.buffer ++ contents.drop (c.logical + c.reader.file.buffer.length) := by
    rcases hbuffer with hnil | hplace
    · rw [hnil]
      rfl
    · rw [hplace, Nat.add_sub_cancel] at hdrop
      exact hdrop
  rw [BufReader.rest, File.ahead, h.contents, hplace]
  rcases hfile with hsize | hpos
  · rw [List.take_append_of_le_length hsize, List.take_append_of_le_length hsize]
    refine ⟨rfl, ?_⟩
    intro _
    rw [List.length_append]
    exact Nat.le_add_right_of_le hsize
  · rw [hpos]
    exact ⟨rfl, id⟩

/-- A read through an aligned buffer gives the value of the bytes at the position. -/
theorem Follows.readValue_aligned (h : Follows contents c) {β : Type} {size : Nat} {transmute : List U8 → β}
    {grants : Nat → Grant} {value : β} (ha : c.AlignedBuffer size)
    (hok : (c.reader.readValue size transmute grants).result = .ok value) :
    size ≤ (contents.drop c.logical).length ∧ value = transmute ((contents.drop c.logical).take size) := by
  obtain ⟨hvalue, hlen⟩ := HeapRead.readValue_ok hok
  obtain ⟨htake, hle⟩ := h.rest_of_aligned ha
  rw [htake] at hvalue
  exact ⟨hle hlen, hvalue⟩

/-- A read of an aligned file gives the bytes at the position. -/
theorem Follows.readRaw_aligned (h : Follows contents c) {text : String} {len : Nat} {grants : Nat → Grant}
    {bytes : List U8} (ha : c.AlignedFile len) (hok : (c.reader.readRaw text len grants).result = .ok bytes) :
    len ≤ (contents.drop c.logical).length ∧ bytes = (contents.drop c.logical).take len := by
  obtain ⟨hbytes, hlen⟩ := HeapRead.readRaw_ok hok
  rcases ha with rfl | hpos
  · exact ⟨Nat.zero_le _, hbytes⟩
  · rw [File.ahead, h.contents, hpos] at hbytes hlen
    exact ⟨hlen, hbytes⟩

end HeapCursor

open HeapCursor

/-- After any calls, a call whose bytes come from where the position is, when it succeeds, gives exactly the bytes
of the file from that position on. -/
theorem heapRead_reads_at_logical (file : File U8) (calls : List HeapCall) (call : HeapCall) (value : HeapValue)
    (haligned : ((start file).run calls).Aligned call)
    (hok : (call.run ((start file).run calls).reader).result = .ok value) :
    call.size ≤ (file.contents.drop ((start file).run calls).logical).length ∧
      value = call.valueOf ((file.contents.drop ((start file).run calls).logical).take call.size) := by
  have h := follows_run file calls
  cases call with
  | gotoRecordAt offset granted =>
    obtain ⟨_, -, rfl⟩ := HeapResult.map_ok hok
    exact ⟨Nat.zero_le _, rfl⟩
  | readBitmap len grants =>
    obtain ⟨bytes, hbytes, rfl⟩ := HeapResult.map_ok hok
    obtain ⟨hlen, heq⟩ := h.readRaw_aligned haligned hbytes
    exact ⟨hlen, congrArg HeapValue.bytes heq⟩
  | adtVariant grants =>
    obtain ⟨variant, hvariant, rfl⟩ := HeapResult.map_ok hok
    obtain ⟨hlen, heq⟩ := h.readValue_aligned haligned hvariant
    exact ⟨hlen, congrArg HeapValue.variant heq⟩
  | readBlobStorable grants =>
    obtain ⟨blob, hblob, rfl⟩ := HeapResult.map_ok hok
    obtain ⟨hlen, heq⟩ := h.readValue_aligned haligned hblob
    exact ⟨hlen, congrArg HeapValue.blob heq⟩
  | readInline len grants =>
    obtain ⟨bytes, hbytes, rfl⟩ := HeapResult.map_ok hok
    obtain ⟨hlen, heq⟩ := h.readRaw_aligned haligned hbytes
    exact ⟨hlen, congrArg HeapValue.bytes heq⟩

/-- A heap file of the bytes `0` to `11`, opened at its start. -/
def twelveBytes : File U8 where
  contents := (List.range 12).map (BitVec.ofNat 8)
  pos := 0

/-- A system that grants every read in full. -/
def grantAll : Nat → Grant := fun _ => some 8191

/-- Jumping back after the buffer has been used up, the variant read is that of the four bytes jumped to. -/
theorem heapRead_reads_at_logical_after_jump :
    HeapValue.variant 0x06050403 = (HeapCall.adtVariant grantAll).valueOf (((twelveBytes.contents).drop 3).take 4) :=
  (heapRead_reads_at_logical twelveBytes [.gotoRecordAt 8 true, .adtVariant grantAll, .gotoRecordAt 3 true]
    (.adtVariant grantAll) (.variant 0x06050403) ⟨Or.inl (by decide), Or.inr (by decide)⟩ (by decide)).2

/-- Jumping on while bytes read ahead are in the buffer, the variant read is that of the bytes in the buffer, not of those
jumped to. -/
theorem heapRead_reads_stale_buffer :
    let c := (start twelveBytes).run [.gotoRecordAt 0 true, .adtVariant grantAll, .gotoRecordAt 8 true]
    c.logical = 8 ∧ (HeapCall.run c.reader (.adtVariant grantAll)).result = .ok (.variant 0x07060504) ∧
      HeapCall.valueOf ((twelveBytes.contents.drop 8).take 4) (.adtVariant grantAll) = .variant 0x0b0a0908 := by
  decide

end Kobzar
