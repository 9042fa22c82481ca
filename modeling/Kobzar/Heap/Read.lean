import Kobzar.Machine
import Kobzar.Library.Bytes
import Kobzar.Library.Reading

/-!
# The heap file reader

`HeapRead` moves to a record (`gotoRecordAt`) and reads its parts. The jump, the bitmap and the inline data go to the file
under the buffered reader (`get_mut`), the variant and the BLOB header go through the buffer. Each read is given what the
system lets every one of its file reads do.
-/

namespace Kobzar

open Bytes Reading

/-- `BlobStorable`: where BLOB data starts, with flags in the high bits, and its size. -/
structure BlobStorable where
  blobOffset : U64
  blobSize : U64
  deriving DecidableEq, Repr

/-- What a method of the reader fails with: an error of the file, or its own for a slice that was not filled. -/
inductive HeapError where
  | file (error : ReadError)
  | shortRead (text : String)
  deriving DecidableEq, Repr

/-- `HeapRead`: a buffered reader of the heap file, and where the record starts. -/
structure HeapRead where
  file : BufReader U8
  recordStart : U64
  deriving DecidableEq, Repr

/-- What a method leaves: its result, the reader, and how many bytes it consumed. -/
structure HeapResult (β : Type) where
  result : Except HeapError β
  consumed : Nat
  reader : HeapRead

namespace HeapRead

/-- The capacity that `BufReader::new` gives the buffer. -/
def capacity : Nat := 8192

/-- `HeapRead::new`. -/
def new (file : File U8) : HeapRead where
  file := { file, buffer := [] }
  recordStart := 0

/-- `goto_record_at`; the file may refuse to seek. -/
def gotoRecordAt (this : HeapRead) (offset : U32) (granted : Bool) : HeapResult Unit :=
  if granted then
    let file := { this.file with file := { this.file.file with pos := offset.toNat } }
    { result := .ok (), consumed := 0, reader := { file, recordStart := offset.setWidth 64 } }
  else { result := .error (.file .device), consumed := 0, reader := this }

/-- `self.file.get_mut().read_exact(buf)` with a check of the count: a read past the buffer. -/
def readRaw (text : String) (this : HeapRead) (len : Nat) (grants : Nat → Grant) : HeapResult (List U8) :=
  let out := readExact File.read len grants this.file.file
  { result := match out.error with
      | some error => .error (.file error)
      | none => if out.taken.length = len then .ok out.taken else .error (.shortRead text)
    consumed := out.taken.length
    reader := { this with file := { this.file with file := out.source } } }

/-- `read!`: as many bytes as a type has, through the buffer, taken for a value of the type. -/
def readValue {β : Type} (size : Nat) (transmute : List U8 → β) (this : HeapRead) (grants : Nat → Grant) :
    HeapResult β :=
  let out := readExact (BufReader.read capacity) size grants this.file
  { result := match out.error with
      | some error => .error (.file error)
      | none => .ok (transmute out.taken)
    consumed := out.taken.length
    reader := { this with file := out.source } }

/-- `read_bitmap`, into a slice of `len` bytes. -/
def readBitmap : HeapRead → Nat → (Nat → Grant) → HeapResult (List U8) := readRaw "short bitmap read"

/-- The four bytes of a variant. -/
def asVariant (bytes : List U8) : U32 := wordAt 4 bytes 0

/-- `adt_variant`. -/
def adtVariant : HeapRead → (Nat → Grant) → HeapResult U32 := readValue 4 asVariant

/-- The sixteen bytes of a BLOB header. -/
def asBlobStorable (bytes : List U8) : BlobStorable where
  blobOffset := wordAt 8 bytes 0
  blobSize := wordAt 8 bytes 8

/-- `read_blob_storable`. -/
def readBlobStorable : HeapRead → (Nat → Grant) → HeapResult BlobStorable := readValue 16 asBlobStorable

/-- `read_inline`, into a slice of `len` bytes. -/
def readInline : HeapRead → Nat → (Nat → Grant) → HeapResult (List U8) := readRaw "short inline read"

/-! ## What the reads read -/

variable {this : HeapRead}

/-- A read past the buffer, when it does not fail, gives what stands at the position of the file. -/
theorem readRaw_ok {text : String} {len : Nat} {grants : Nat → Grant} {bytes : List U8}
    (h : (this.readRaw text len grants).result = .ok bytes) :
    bytes = this.file.file.ahead.take len ∧ len ≤ this.file.file.ahead.length := by
  unfold readRaw at h
  rcases herror : (readExact File.read len grants this.file.file).error with _ | error
  · obtain ⟨htaken, hlen⟩ := (File.read_delivers this.file.file.contents).readExact_ok rfl herror
    simp only [herror] at h
    split at h
    · exact ⟨(Except.ok.inj h).symm.trans htaken, hlen⟩
    · cases h
  · simp only [herror] at h
    cases h

/-- A read past the buffer changes neither the buffer nor what the file holds. -/
theorem readRaw_file (this : HeapRead) (text : String) (len : Nat) (grants : Nat → Grant) :
    (this.readRaw text len grants).reader.file.buffer = this.file.buffer ∧
      (this.readRaw text len grants).reader.file.file.contents = this.file.file.contents :=
  ⟨rfl, ((File.read_delivers this.file.file.contents).readExactFrom len len grants this.file.file rfl).1⟩

/-- A read through the buffer, when it does not fail, gives the value of what was read ahead, then of what stands at the
position of the file. -/
theorem readValue_ok {β : Type} {size : Nat} {transmute : List U8 → β} {grants : Nat → Grant} {value : β}
    (h : (this.readValue size transmute grants).result = .ok value) :
    value = transmute (this.file.rest.take size) ∧ size ≤ this.file.rest.length := by
  unfold readValue at h
  rcases herror : (readExact (BufReader.read capacity) size grants this.file).error with _ | error
  · obtain ⟨htaken, hlen⟩ := (BufReader.read_delivers capacity this.file.file.contents).readExact_ok rfl herror
    simp only [herror, htaken] at h
    exact ⟨(Except.ok.inj h).symm, hlen⟩
  · simp only [herror] at h
    cases h

/-- A read through the buffer does not change what the file holds. -/
theorem readValue_contents {β : Type} (this : HeapRead) (size : Nat) (transmute : List U8 → β)
    (grants : Nat → Grant) :
    (this.readValue size transmute grants).reader.file.file.contents = this.file.file.contents :=
  ((BufReader.read_delivers capacity this.file.file.contents).readExactFrom size size grants this.file rfl).1

/-- A read that the buffer answers leaves what was read ahead where it stands in the file. -/
theorem readUpTo_readValue_of_le {β : Type} {size : Nat} (transmute : List U8 → β) (grants : Nat → Grant)
    {place : Nat} (hle : size ≤ this.file.buffer.length) (h : this.file.ReadUpTo place) :
    (this.readValue size transmute grants).reader.file.ReadUpTo place := by
  simp only [readValue, BufReader.readExact_of_le hle]
  exact h.handOut size

/-- A read that the buffer cannot answer leaves the file read ahead up to its position. -/
theorem readUpTo_readValue_of_lt {β : Type} {size : Nat} (transmute : List U8 → β) (grants : Nat → Grant)
    (hlt : this.file.buffer.length < size) :
    (this.readValue size transmute grants).reader.file.ReadUpTo
      (this.readValue size transmute grants).reader.file.file.pos :=
  BufReader.readUpTo_readExact hlt capacity grants

end HeapRead

end Kobzar
