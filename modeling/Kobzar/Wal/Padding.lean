import Kobzar.Library.Scan
import Kobzar.Wal.Frames

/-!
# The padding behind an entry

An entry is padded to a multiple of eight, by eight bytes when its size is one already. A reader that goes on at the next
multiple of eight behind each entry visits exactly the entries as long as no size is a multiple of eight
(`padded_to_align_iff`); behind an entry whose size is, it lands in the padding.
-/

namespace Kobzar

open Bytes Scan

/-- A size rounded up to the next multiple of eight. -/
def alignedSpan (size : U64) : Nat := (size.toNat + 7) / 8 * 8

/-- Where a reader goes on that reads a size at a place and rounds it up, if there is a size. -/
def alignedNext (bytes : List U8) (o : Nat) : Option Nat :=
  if o + 8 ≤ bytes.length then some (o + alignedSpan (wordAt 8 bytes o)) else none

/-- An entry occupies its size rounded up exactly when its size is no multiple of eight. -/
theorem span_eq_alignedSpan_iff (size : U64) : size.toNat + padding size = alignedSpan size ↔ size.toNat % 8 ≠ 0 := by
  unfold padding alignedSpan
  omega

/-- Entries written to a segment are padded as far as alignment needs: each occupies its size rounded up, and a
reader that goes by this visits their places and the end of the segment, and nothing else. -/
structure PaddedToAlign (digest : Digest) (subs : List Submission) (bytes : List U8) : Prop where
  occupies : ∀ o s, StartsAt digest subs o s → (s.bytes digest).length = alignedSpan (wordAt 8 bytes o)
  visits : ∀ o, Visits (alignedNext bytes) o ↔ o = bytes.length ∨ ∃ s, StartsAt digest subs o s

section Frames

variable {digest : Digest} {subs : List Submission} (hsizes : ∀ s ∈ subs, ∃ size, entrySize s.entry = .ok size)
include hsizes

/-- How much an entry occupies: its size and its padding. -/
theorem StartsAt.length_bytes {o : Nat} {s : Submission} (hs : StartsAt digest subs o s) :
    (s.bytes digest).length = (wordAt 8 (subs.flatMap (·.bytes digest)) o).toNat +
      padding (wordAt 8 (subs.flatMap (·.bytes digest)) o) ∧
    (wordAt 8 (subs.flatMap (·.bytes digest)) o).toNat = 56 + s.entry.payload.length := by
  have hat := hs.frameAt hsizes
  obtain ⟨front, back, rfl, -⟩ := hs
  obtain ⟨size, hsize⟩ := hsizes s (by simp)
  have hword : wordAt 8 ((front ++ s :: back).flatMap (·.bytes digest)) o = size :=
    BitVec.eq_of_toNat_eq (hat.size.trans (entrySize_ok hsize).symm)
  refine ⟨?_, hat.size⟩
  simp only [Submission.bytes, entryBytes, hsize] at hword ⊢
  rw [frame_length digest s.tx hsize, hword]

/-- Each entry occupies its size rounded up exactly when no size is a multiple of eight. -/
theorem occupies_iff :
    (∀ o s, StartsAt digest subs o s →
      (s.bytes digest).length = alignedSpan (wordAt 8 (subs.flatMap (·.bytes digest)) o)) ↔
      ∀ s ∈ subs, s.entry.payload.length % 8 ≠ 0 := by
  have hat : ∀ o s, StartsAt digest subs o s →
      ((s.bytes digest).length = alignedSpan (wordAt 8 (subs.flatMap (·.bytes digest)) o) ↔
        s.entry.payload.length % 8 ≠ 0) := by
    intro o s hs
    obtain ⟨hlen, hword⟩ := hs.length_bytes hsizes
    rw [hlen, span_eq_alignedSpan_iff, hword]
    omega
  constructor
  · intro h s hs
    obtain ⟨front, back, rfl⟩ := List.append_of_mem hs
    exact (hat _ s ⟨front, back, rfl, rfl⟩).mp (h _ s ⟨front, back, rfl, rfl⟩)
  · intro h o s hs
    refine (hat o s hs).mpr (h s ?_)
    obtain ⟨front, back, rfl, -⟩ := hs
    simp

/-- The reader goes on from an entry that occupies its size rounded up to where the entry ends. -/
theorem StartsAt.alignedNext {o : Nat} {s : Submission} (hs : StartsAt digest subs o s)
    (hspan : (s.bytes digest).length = alignedSpan (wordAt 8 (subs.flatMap (·.bytes digest)) o)) :
    alignedNext (subs.flatMap (·.bytes digest)) o = some (o + (s.bytes digest).length) := by
  have hat := hs.frameAt hsizes
  have hsize := hat.size
  have hwithin := hat.within
  rw [Kobzar.alignedNext, if_pos (by omega), hspan]

/-- When each entry occupies its size rounded up, the reader visits exactly the entries and the end. -/
theorem visits_of_occupies
    (h : ∀ o s, StartsAt digest subs o s →
      (s.bytes digest).length = alignedSpan (wordAt 8 (subs.flatMap (·.bytes digest)) o))
    (o : Nat) : Visits (alignedNext (subs.flatMap (·.bytes digest))) o ↔
      o = (subs.flatMap (·.bytes digest)).length ∨ ∃ s, StartsAt digest subs o s := by
  -- the end of what is in front of some entries is the place of the first of these, or the end of all
  have hends : ∀ front back, subs = front ++ back →
      (front.flatMap (·.bytes digest)).length = (subs.flatMap (·.bytes digest)).length ∨
        ∃ s, StartsAt digest subs (front.flatMap (·.bytes digest)).length s := by
    intro front back heq
    cases back with
    | nil =>
      rw [List.append_nil] at heq
      exact Or.inl (by rw [heq])
    | cons s back => exact Or.inr ⟨s, front, back, heq, rfl⟩
  constructor
  · intro hv
    induction hv with
    | start => exact hends [] subs rfl
    | @step o o' _ hnext ih =>
      rcases ih with rfl | ⟨s, hs⟩
      · rw [alignedNext, if_neg (by omega)] at hnext
        cases hnext
      · rw [hs.alignedNext hsizes (h o s hs)] at hnext
        cases hnext
        obtain ⟨front, back, heq, rfl⟩ := hs
        have hend := hends (front ++ [s]) back (by rw [heq, List.append_assoc]; rfl)
        rwa [List.flatMap_append, List.flatMap_singleton, List.length_append] at hend
  · have hall : ∀ front back, subs = front ++ back →
        Visits (alignedNext (subs.flatMap (·.bytes digest))) (front.flatMap (·.bytes digest)).length := by
      intro front
      induction front using List.reverseRecOn with
      | nil => exact fun _ _ => .start
      | append_singleton front s ih =>
        intro back heq
        rw [List.append_assoc, List.singleton_append] at heq
        have hs : StartsAt digest subs (front.flatMap (·.bytes digest)).length s := ⟨front, back, heq, rfl⟩
        rw [List.flatMap_append, List.flatMap_singleton, List.length_append]
        exact (ih (s :: back) heq).step (hs.alignedNext hsizes (h _ s hs))
    rintro (rfl | ⟨s, front, back, heq, rfl⟩)
    · exact hall subs [] (List.append_nil subs).symm
    · exact hall front (s :: back) heq

end Frames

/-- When entries are padded as far as alignment needs, after they were written one after another into an empty
segment, all successfully and without the device refusing any: exactly when the payload of none is as long as a
multiple of eight, the size then being one too. -/
theorem padded_to_align_iff (digest : Digest) (log log' : Log) (hvalid : log.Valid) (hempty : log.stream = [])
    (subs : List Submission) (hok : log.writeAll digest subs = (.ok (), log'))
    (hkept : log'.wal.refused = log.wal.refused) :
    PaddedToAlign digest subs log'.stream ↔ ∀ s ∈ subs, s.entry.payload.length % 8 ≠ 0 := by
  obtain ⟨hpasses, hsizes⟩ := Log.writeAll_ok hvalid hok
  have hstream := hpasses.stream hkept
  rw [hempty, List.nil_append] at hstream
  rw [hstream, ← occupies_iff hsizes]
  constructor
  · exact fun h => h.occupies
  · exact fun h => ⟨h, visits_of_occupies hsizes h⟩

/-- A dropped function of a name of one byte, written into an empty segment: its size is 65, and it is padded as far as
alignment needs. -/
theorem padded_to_align_dropFn :
    PaddedToAlign zeroDigest [⟨1, .dropFn 0 ⟨"f", by decide⟩, []⟩]
      (emptyLog.writeAll zeroDigest [⟨1, .dropFn 0 ⟨"f", by decide⟩, []⟩]).2.stream := by
  have hok : emptyLog.writeAll zeroDigest [⟨1, .dropFn 0 ⟨"f", by decide⟩, []⟩] =
      (.ok (), (emptyLog.writeAll zeroDigest [⟨1, .dropFn 0 ⟨"f", by decide⟩, []⟩]).2) :=
    Prod.fst_eq_iff.mp (by decide +kernel)
  exact (padded_to_align_iff zeroDigest emptyLog _ Nat.zero_lt_one rfl _ hok (by decide +kernel)).mpr (by decide +kernel)

/-- A commit written into an empty segment occupies 64 bytes, though its size is 56: the reader goes on at 56, in its
padding. -/
theorem commit_padded_by_eight :
    let log := (emptyLog.writeAll zeroDigest [⟨1, .commit, []⟩]).2
    (emptyLog.writeAll zeroDigest [⟨1, .commit, []⟩]).1 = .ok () ∧ log.wal.refused = 0 ∧
      log.stream.length = 64 ∧
      wordAt 8 log.stream 0 = 56 ∧ alignedSpan 56 = 56 ∧ Visits (alignedNext log.stream) 56 ∧
      ¬ PaddedToAlign zeroDigest [⟨1, .commit, []⟩] log.stream := by
  intro log
  have hlen : log.stream.length = 64 := by decide +kernel
  have hword : wordAt 8 log.stream 0 = 56 := by decide +kernel
  refine ⟨by decide +kernel, by decide +kernel, hlen, hword, rfl,
    Visits.start.step (by rw [alignedNext, hlen, hword]; rfl), ?_⟩
  intro h
  have hspan := h.occupies 0 ⟨1, .commit, []⟩ ⟨[], [], rfl, rfl⟩
  rw [hword] at hspan
  exact absurd hspan (by decide +kernel)

end Kobzar
