import Kobzar.Heap.Read

/-!
# The BLOB file

`BlobFile` moves to an offset and reads there, past any buffer. So a read gives the same whatever was read before
it, and whether that failed or not (`blob_read_independent`).
-/

namespace Kobzar

open Reading

/-- `BlobFile`: the file with the data of BLOBs. -/
structure BlobFile where
  file : File U8
  deriving DecidableEq, Repr

/-- `BlobFile::read`, into a buffer of `len` bytes; the file may refuse to seek. -/
def BlobFile.read (this : BlobFile) (offset : U64) (len : Nat) (granted : Bool) (grants : Nat → Grant) :
    Except HeapError (List U8) × BlobFile :=
  if granted then
    let out := readExact File.read len grants { this.file with pos := offset.toNat }
    let result := match out.error with
      | some error => .error (.file error)
      | none => if out.taken.length = len then .ok out.taken else .error (.shortRead "short BLOB read")
    (result, { file := out.source })
  else (.error (.file .device), this)

/-- A call of `read`, with what the system grants it. -/
structure BlobCall where
  offset : U64
  len : Nat
  granted : Bool
  grants : Nat → Grant

namespace BlobCall

/-- The call of the method. -/
def run (call : BlobCall) (this : BlobFile) : Except HeapError (List U8) × BlobFile :=
  this.read call.offset call.len call.granted call.grants

/-- No part of the call fails. -/
def Granted (call : BlobCall) : Prop := call.granted = true ∧ ∀ k, (call.grants k).isSome

end BlobCall

/-- The file after calls one after another. -/
def BlobFile.after (this : BlobFile) (calls : List BlobCall) : BlobFile :=
  calls.foldl (fun this call => (call.run this).2) this

namespace BlobCall

/-- Why the read of a call ends before all its bytes have come, of a file with these contents. -/
def readError (call : BlobCall) (contents : List U8) : Option ReadError :=
  (readExact File.read call.len call.grants { contents, pos := call.offset.toNat }).error

/-- A read that does not end early takes the bytes that stand at its offset, and there are as many as it asks for. -/
theorem taken_of_readError (call : BlobCall) (contents : List U8) (h : call.readError contents = none) :
    (readExact File.read call.len call.grants { contents, pos := call.offset.toNat }).taken =
        (contents.drop call.offset.toNat).take call.len ∧ call.len ≤ (contents.drop call.offset.toNat).length :=
  (File.read_delivers contents).readExact_ok (s := { contents, pos := call.offset.toNat }) rfl h

/-- A call gives all the bytes that stand at its offset, or the error that its read ends with; it leaves the
contents of the file. -/
theorem run_spec (call : BlobCall) (this : BlobFile) :
    (call.run this).2.file.contents = this.file.contents ∧
      (call.run this).1 = if call.granted then
        match call.readError this.file.contents with
        | some error => .error (.file error)
        | none => .ok ((this.file.contents.drop call.offset.toNat).take call.len)
      else .error (.file .device) := by
  have hd := File.read_delivers this.file.contents
  have hread := call.taken_of_readError this.file.contents
  unfold run BlobFile.read
  unfold readError at hread ⊢
  split
  · refine ⟨(hd.readExactFrom call.len call.len call.grants { this.file with pos := call.offset.toNat } rfl).1, ?_⟩
    rcases herror : (readExact File.read call.len call.grants
        { contents := this.file.contents, pos := call.offset.toNat }).error with _ | error
    · obtain ⟨htaken, hle⟩ := hread herror
      have hlen : ((this.file.contents.drop call.offset.toNat).take call.len).length = call.len := by
        rw [List.length_take, Nat.min_eq_left hle]
      simp only [herror, htaken, hlen, if_true]
    · simp only [herror]
  · exact ⟨rfl, rfl⟩

/-- When no part of a call fails, its read ends early exactly where the file does. -/
theorem readError_of_granted {call : BlobCall} (h : call.Granted) (contents : List U8) :
    call.readError contents = if call.len ≤ (contents.drop call.offset.toNat).length then none
      else some .unexpectedEof :=
  (File.read_delivers contents).readExact_of_granted BufReader.serves_gives_file_read.1
    BufReader.serves_gives_file_read.2 h.2
    (s := { contents, pos := call.offset.toNat }) rfl

end BlobCall

/-- Calls do not change the contents of the file. -/
theorem BlobFile.contents_after (this : BlobFile) (calls : List BlobCall) :
    (this.after calls).file.contents = this.file.contents := by
  induction calls generalizing this with
  | nil => rfl
  | cons call calls ih =>
    rw [after, List.foldl_cons, ← after, ih]
    exact (call.run_spec this).1

/-- A read gives the bytes that stand at its offset, whatever was read before it and whether that failed or not:
the same as a read of the file as it was opened, all the bytes or none. It never ends with the error for a slice
that was not filled; and when no part of it fails, it gives the bytes unless the file ends before. -/
theorem blob_read_independent (this : BlobFile) (calls : List BlobCall) (call : BlobCall) :
    let data := this.file.contents.drop call.offset.toNat
    let result := (call.run (this.after calls)).1
    result = (call.run this).1 ∧ (∀ bytes, result = .ok bytes → bytes = data.take call.len ∧
      bytes.length = call.len) ∧ (∀ text, result ≠ .error (.shortRead text)) ∧
      (call.Granted → result = if call.len ≤ data.length then .ok (data.take call.len)
        else .error (.file .unexpectedEof)) := by
  have hsame : (call.run (this.after calls)).1 = (call.run this).1 := by
    rw [(call.run_spec _).2, (call.run_spec this).2, this.contents_after]
  have hread := call.taken_of_readError this.file.contents
  simp only [hsame, true_and, (call.run_spec this).2]
  refine ⟨?_, ?_, ?_⟩
  · intro bytes h
    split at h
    · split at h
      · cases h
      · rename_i herror
        cases h
        exact ⟨rfl, by rw [List.length_take, Nat.min_eq_left (hread herror).2]⟩
    · cases h
  · intro text
    split
    · split <;> exact nofun
    · exact nofun
  · intro hgranted
    rw [BlobCall.readError_of_granted hgranted, if_pos hgranted.1]
    by_cases hle : call.len ≤ (this.file.contents.drop call.offset.toNat).length
    · rw [if_pos hle, if_pos hle]
    · rw [if_neg hle, if_neg hle]

end Kobzar
