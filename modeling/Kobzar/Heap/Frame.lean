import Kobzar.Heap.Positions
import Kobzar.Library.Confined

/-!
# What a writer of the heap file leaves alone

Any seek of `HeapWrite` may be refused, and more calls may follow. As long as the device refuses no write, none of
them changes a byte of the file that it was not asked to write (`heapWrite_changes_only_asked`). Behind a refused
write the others are shifted.
-/

namespace Kobzar

open Bytes Reading Writer Overwriting

/-- A byte is asked for at a place by a call of a writer that is at a place. -/
def WriteCall.Asks (call : WriteCall) (place i : Nat) (byte : U8) : Prop :=
  place ≤ i ∧ call.bytes[i - place]? = some byte

/-- A byte is asked for at a place by one of the calls. -/
def HeapWrite.Asked (this : HeapWrite) (calls : List WriteCall) (i : Nat) (byte : U8) : Prop :=
  ∃ before call rest, calls = before ++ call :: rest ∧ call.Asks (this.after before).place i byte

variable {old : List U8} {asked : Nat → U8 → Prop} {this : HeapWrite}

/-- A call of a clear writer, whatever it returns, leaves the writer confined to what was asked for, when the
device refuses no write. -/
theorem confined_run (h : Confined 0 old asked this.file.sink this.file.buffer) (hclear : this.Clear) {call : WriteCall}
    (hkept : (call.run this).2.refused = this.refused) (hask : ∀ i byte, call.Asks this.place i byte → asked i byte) :
    Confined 0 old asked (call.run this).2.file.sink (call.run this).2.file.buffer := by
  rcases call.run_cases this with ⟨target, rooms, grant, -, -, hrun⟩ | ⟨n, -, -, hpasses, -⟩
  · rw [hrun, HeapWrite.refused, (HeapWrite.outcome_eq _).2] at hkept
    rw [hrun, (HeapWrite.outcome_eq _).2]
    exact Confined.seek (w := this.on rooms) h (hclear.on rooms).1 (hclear.on rooms).2 hkept
  · refine h.passes hpasses hkept fun k byte hk => ?_
    rw [List.getElem?_take] at hk
    split at hk
    · refine hask _ _ ⟨Nat.le_add_right _ _, ?_⟩
      rwa [HeapWrite.place, Nat.add_sub_cancel_left]
    · cases hk

/-- What is asked for by calls is asked for by them and one more. -/
theorem HeapWrite.Asked.concat {calls : List WriteCall} {i : Nat} {byte : U8} (h : this.Asked calls i byte)
    (call : WriteCall) : this.Asked (calls ++ [call]) i byte := by
  obtain ⟨before, asking, rest, rfl, hask⟩ := h
  exact ⟨before, asking, rest ++ [call], by simp, hask⟩

/-- Calls on a new writer, whatever each of them returns, leave it confined to what they asked for, when the device
refuses no write. -/
theorem confined_after (file : Reading.File U8) {calls : List WriteCall}
    (htaken : ((HeapWrite.new file).after calls).refused = 0) :
    Confined 0 file.contents ((HeapWrite.new file).Asked calls) ((HeapWrite.new file).after calls).file.sink
      ((HeapWrite.new file).after calls).file.buffer := by
  induction calls using List.reverseRecOn with
  | nil => exact confined_new 0 _ file
  | append_singleton calls call ih =>
    have hafter : (HeapWrite.new file).after (calls ++ [call]) = (call.run ((HeapWrite.new file).after calls)).2 := by
      rw [HeapWrite.after, List.foldl_append]
      rfl
    rw [hafter] at htaken ⊢
    have hle := ((HeapWrite.new file).after calls).refused_run call
    have hbefore : ((HeapWrite.new file).after calls).refused = 0 := by omega
    exact confined_run ((ih hbefore).mono fun i byte h => h.concat call) (HeapWrite.clear_after file hbefore) (by omega)
      fun i byte hask => ⟨calls, call, [], rfl, hask⟩

/-- After any calls, of which any seek may be refused, on a device that refuses no write: the file is no shorter,
and has at each place what it had there, or a byte that one of the calls was asked to write there, or, behind its
old end, the zero of a gap that a move has left. -/
theorem heapWrite_changes_only_asked (file : Reading.File U8) (calls : List WriteCall)
    (htaken : ((HeapWrite.new file).after calls).refused = 0) :
    let contents := ((HeapWrite.new file).after calls).dropped.contents
    file.contents.length ≤ contents.length ∧
      ∀ i, contents[i]? = file.contents[i]? ∨ ∃ byte, contents[i]? = some byte ∧
        ((HeapWrite.new file).Asked calls i byte ∨ file.contents.length ≤ i ∧ byte = 0) := by
  intro contents
  have hall := (confined_after file htaken).stored
  refine ⟨?_, hall⟩
  by_contra hshort
  rcases hall contents.length with hsame | ⟨byte, hbyte, -⟩
  · have hnone : file.contents[contents.length]? = none := hsame ▸ List.getElem?_eq_none (Nat.le_refl contents.length)
    have := List.getElem?_eq_none_iff.mp hnone
    omega
  · have hnone : contents[contents.length]? = none := List.getElem?_eq_none (Nat.le_refl _)
    exact nomatch hnone.symm.trans hbyte

/-- A byte written two places behind the end, and a move back that is refused: the byte is in the file, behind two
zeros. -/
theorem heapWrite_changes_only_asked_gap :
    let calls : List WriteCall :=
      [.moveTo 3 [] grantSeek, .writeInline [9] [], .moveTo 0 [] { leftover := true, asked := false }]
    let contents := ((HeapWrite.new { contents := [5], pos := 0 }).after calls).dropped.contents
    contents = [5, 0, 0, 9] ∧ 1 ≤ contents.length ∧
      ∀ i, contents[i]? = [5][i]? ∨ ∃ byte, contents[i]? = some byte ∧
        ((HeapWrite.new { contents := [5], pos := 0 }).Asked calls i byte ∨ 1 ≤ i ∧ byte = 0) := by
  intro calls contents
  exact ⟨by decide +kernel, heapWrite_changes_only_asked { contents := [5], pos := 0 } calls (by decide +kernel)⟩

end Kobzar
