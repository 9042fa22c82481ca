import Kobzar.Library.Scan
import Kobzar.Wal.Log

/-!
# Scanning a segment

A forward scan of a segment reads the size at a place and goes on behind the entry and its padding. It reaches
every entry of a segment of whole entries (`reached_of_whole`); behind an entry that was cut short it does not
reach the next one (`not_reached_behind_torn`).
-/

namespace Kobzar

open Bytes Scan

/-- What an entry of a size occupies, with its padding. -/
def span (size : U64) : Nat := size.toNat + padding size

/-- Where the scan goes on from a place: behind the entry whose size it reads there, if there is a size. -/
def nextEntry (bytes : List U8) (o : Nat) : Option Nat :=
  if o + 8 ≤ bytes.length then some (o + span (wordAt 8 bytes o)) else none

/-- The scan of a segment from its start reaches the place. -/
def Reached (bytes : List U8) : Nat → Prop := Visits (nextEntry bytes)

/-- An entry occupies at least eight bytes. -/
theorem eight_le_span (size : U64) : 8 ≤ span size := by
  unfold span padding
  omega

/-- A scan leaves at least eight bytes behind it. -/
theorem nextEntry_eq_some {bytes : List U8} {o o' : Nat} (h : nextEntry bytes o = some o') :
    o + 8 ≤ bytes.length ∧ o' = o + span (wordAt 8 bytes o) ∧ o + 8 ≤ o' := by
  unfold nextEntry at h
  split at h
  · rename_i hle
    cases h
    exact ⟨hle, rfl, Nat.add_le_add_left (eight_le_span _) o⟩
  · cases h

theorem forward_nextEntry (bytes : List U8) : Forward (nextEntry bytes) := by
  intro o o' h
  have := (nextEntry_eq_some h).2.2
  omega

/-- A word at a place of a front is the word there. -/
theorem wordAt_front {front bytes : List U8} (h : front <+: bytes) {n o : Nat} (hle : o + n ≤ front.length) :
    wordAt n bytes o = wordAt n front o := by
  obtain ⟨back, rfl⟩ := h
  rw [wordAt, wordAt, List.drop_append_of_le_length (by omega), List.take_append_of_le_length (by simp; omega)]

/-- Whether a place is reached depends on the bytes before it only. -/
theorem reached_congr {front bytes bytes' : List U8} (h : front <+: bytes) (h' : front <+: bytes') {p : Nat}
    (hp : p ≤ front.length) (hreached : Reached bytes p) : Reached bytes' p := by
  refine Visits.congr (forward_nextEntry bytes) ?_ hreached hp
  intro o o' hnext hle
  obtain ⟨-, ho', hlt⟩ := nextEntry_eq_some hnext
  have hlen : o + 8 ≤ front.length := by omega
  rw [wordAt_front h hlen] at ho'
  rw [nextEntry, if_pos (Nat.le_trans hlen h'.length_le), wordAt_front h' hlen, ho']

/-- The size of an entry is read where its frame starts. -/
theorem wordAt_frame (digest : Digest) (tx : U64) (entry : WalEntry) (size : U64) (front back : List U8) :
    wordAt 8 (front ++ frame digest tx entry size ++ back) front.length = size := by
  obtain ⟨rest, hrest⟩ := frame_eq digest tx entry size
  have hlen : (le64 size).length = 8 := toLe_length 8 size.toNat
  rw [hrest, wordAt, List.append_assoc, List.drop_left, List.append_assoc, List.take_left' hlen, le64,
    ofLe_toLe_of_lt (by exact size.isLt), BitVec.ofNat_toNat, BitVec.setWidth_eq]

/-- A segment of whole entries. -/
inductive WholeEntries (digest : Digest) : List U8 → Prop where
  | nil : WholeEntries digest []
  | snoc {bytes : List U8} (tx : U64) {entry : WalEntry} {size : U64} :
      WholeEntries digest bytes → entrySize entry = .ok size →
        WholeEntries digest (bytes ++ frame digest tx entry size)

/-- The scan of a segment of whole entries gets to its end. -/
theorem reached_of_whole {digest : Digest} {bytes : List U8} (h : WholeEntries digest bytes) :
    Reached bytes bytes.length := by
  induction h with
  | nil => exact .start
  | @snoc bytes tx entry size hwhole hsize ih =>
    have hstart : Reached (bytes ++ frame digest tx entry size) bytes.length :=
      reached_congr (List.prefix_refl bytes) (List.prefix_append _ _) (Nat.le_refl _) ih
    refine hstart.step ?_
    have hlen := frame_length digest tx hsize
    have hword := wordAt_frame digest tx entry size bytes []
    rw [List.append_nil] at hword
    have height := eight_le_span size
    rw [nextEntry, hword, List.length_append, hlen, if_pos (by rw [← span]; omega)]
    rfl

/-- Behind an entry that was cut short, whatever comes there is not reached. -/
theorem not_reached_behind_torn {digest : Digest} {front back : List U8} {tx : U64} {entry : WalEntry}
    {size : U64} {n : Nat} (hfront : WholeEntries digest front) (hsize : entrySize entry = .ok size) (hpos : 0 < n)
    (hlt : n < (frame digest tx entry size).length) :
    ¬ Reached (front ++ (frame digest tx entry size).take n ++ back) (front.length + n) := by
  obtain ⟨bytes, hbytes⟩ : ∃ bytes, bytes = front ++ (frame digest tx entry size).take n ++ back := ⟨_, rfl⟩
  rw [← hbytes]
  have hstarts : front <+: bytes := by
    rw [hbytes, List.append_assoc]
    exact List.prefix_append _ _
  have hstart : Reached bytes front.length :=
    reached_congr (List.prefix_refl front) hstarts (Nat.le_refl _) (reached_of_whole hfront)
  have hlen := frame_length digest tx hsize
  cases hnext : nextEntry bytes front.length with
  | none => exact hstart.not_behind (forward_nextEntry bytes) hnext (by omega)
  | some o' =>
    refine hstart.not_between (forward_nextEntry bytes) hnext (by omega) ?_
    obtain ⟨-, ho', hle⟩ := nextEntry_eq_some hnext
    rcases Nat.lt_or_ge n 8 with hshort | hlong
    · omega
    · -- the size was written in full, so that the scan goes on behind the whole entry
      have htake : (le64 size).length = 8 := toLe_length 8 size.toNat
      obtain ⟨rest, hrest⟩ := frame_eq digest tx entry size
      have hword : wordAt 8 bytes front.length = size := by
        rw [hbytes, wordAt, List.append_assoc, List.drop_left, List.take_append_of_le_length (by simp; omega),
          List.take_take, Nat.min_eq_left hlong, hrest, List.take_left' htake, le64,
          ofLe_toLe_of_lt (by exact size.isLt), BitVec.ofNat_toNat, BitVec.setWidth_eq]
      rw [hword, span] at ho'
      omega

end Kobzar
