import Kobzar.BitmapEdit

/-!
# Edits merged one after another

Since a merge clears no bit, the words keep every bit that any batch of edits has set. The order of batches does
not matter, nor how often each is merged (`merged_in_any_order`).
-/

namespace Kobzar

open Bits FieldEdit

/-- A batch of edits, recorded from none and merged into words. -/
def mergeBatch {bits : Nat} (buf : List U64) (edits : List (FieldEdit bits)) : Outcome (List U64) := do
  let edit ← run edits
  edit.applyTo buf

/-- Batches merged one after another. -/
def mergeBatches {bits : Nat} (batches : List (List (FieldEdit bits))) (buf : List U64) : Outcome (List U64) :=
  batches.foldlM mergeBatch buf

/-- Some batch sets a bit: the last edit in it that covers the bit writes it as 1. -/
def setBy {bits : Nat} (batches : List (List (FieldEdit bits))) (p : Nat) : Bool :=
  batches.any fun edits => (lastWritten edits p).getD false

variable {bits : Nat} {buf : List U64}

/-- A merge adds the bits that the batch sets. -/
theorem mergeBatch_ok (edits : List (FieldEdit bits)) (hlen : buf.length = bits / 64 + 1) :
    ∃ out, mergeBatch buf edits = .ok out ∧ out.length = bits / 64 + 1 ∧
      ∀ p < 64 * (bits / 64 + 1), bitAt out p = (bitAt buf p || (lastWritten edits p).getD false) := by
  obtain ⟨edit, hrun, hbitmap, hmask, hbits⟩ := run_bitmap edits
  obtain ⟨out, happly, hout, hmerged⟩ := edit.applyTo_ok buf (by simp [hmask, hbitmap]) (hlen.trans hbitmap.symm)
  refine ⟨out, ?_, hout.trans hlen, ?_⟩
  · rw [mergeBatch, hrun, ok_bind, happly]
  · intro p hp
    rw [hmerged p (hlen ▸ hp), hmask, hbits]
    simp

/-- Merges add the bits that any batch sets. -/
theorem mergeBatches_ok (batches : List (List (FieldEdit bits))) (hlen : buf.length = bits / 64 + 1) :
    ∃ out, mergeBatches batches buf = .ok out ∧ out.length = bits / 64 + 1 ∧
      ∀ p < 64 * (bits / 64 + 1), bitAt out p = (bitAt buf p || setBy batches p) := by
  induction batches generalizing buf with
  | nil => exact ⟨buf, rfl, hlen, by simp [setBy]⟩
  | cons edits batches ih =>
    obtain ⟨mid, hmerge, hmid, hbits⟩ := mergeBatch_ok edits hlen
    obtain ⟨out, hrest, hout, hbits'⟩ := ih hmid
    refine ⟨out, ?_, hout, ?_⟩
    · rw [mergeBatches, List.foldlM_cons, hmerge]
      exact hrest
    · intro p hp
      rw [hbits' p hp, hbits p hp, setBy, setBy, List.any_cons, Bool.or_assoc]

/-- Batches of edits merged one after another do not panic, and add to the words the bits that some batch sets; so
the same batches in any order, each merged any number of times, leave the same words. -/
theorem merged_in_any_order (batches : List (List (FieldEdit bits))) (buf : Vector U64 (bits / 64 + 1)) :
    ∃ out, mergeBatches batches buf.toList = .ok out ∧
      (∀ p < 64 * (bits / 64 + 1), bitAt out p = (bitAt buf.toList p || setBy batches p)) ∧
      ∀ batches', (∀ edits, edits ∈ batches' ↔ edits ∈ batches) →
        mergeBatches batches' buf.toList = .ok out := by
  obtain ⟨out, hmerge, hlen, hbits⟩ := mergeBatches_ok batches buf.length_toList
  refine ⟨out, hmerge, hbits, ?_⟩
  intro batches' hsame
  obtain ⟨out', hmerge', hlen', hbits'⟩ := mergeBatches_ok batches' buf.length_toList
  have hset : ∀ p, setBy batches' p = setBy batches p := by
    intro p
    rw [setBy, setBy, Bool.eq_iff_iff, List.any_eq_true, List.any_eq_true]
    constructor
    · rintro ⟨edits, hmem, hp⟩
      exact ⟨edits, (hsame edits).mp hmem, hp⟩
    · rintro ⟨edits, hmem, hp⟩
      exact ⟨edits, (hsame edits).mpr hmem, hp⟩
  have heq : out' = out := by
    refine ext_bitAt (hlen'.trans hlen.symm) ?_
    intro p hp
    rw [hlen'] at hp
    rw [hbits' p hp, hbits p hp, hset]
  rw [hmerge', heq]

/-- A batch that sets the low bit of a field, one that sets the high bit, and the latter merged twice and first. -/
theorem merged_in_any_order_twice :
    let low : FieldEdit 2 := { offset := 0, size := 1, value := 1, size_le := by decide, in_range := by decide,
                               fits := by decide }
    let high : FieldEdit 2 := { offset := 1, size := 1, value := 1, size_le := by decide, in_range := by decide,
                                fits := by decide }
    mergeBatches [[high], [low], [high]] [0] = .ok [3] := by
  intro low high
  obtain ⟨out, hmerge, -, horder⟩ := merged_in_any_order [[low], [high]] #v[0]
  have hout : mergeBatches [[low], [high]] [0] = .ok [3] := by decide
  rw [← hout]
  refine (horder [[high], [low], [high]] fun edits => ?_).trans hmerge.symm
  simp only [List.mem_cons, List.not_mem_nil, or_false]
  tauto

end Kobzar
