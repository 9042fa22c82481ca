import Kobzar.Heap.Write

/-!
# Positions of the heap file and their offsets

`position` cuts the position of the file, a word of 64 bits, to an offset of 32 bits without a check. So an offset that it
returns leads back to the position it was asked at exactly while that is below 4 GiB (`position_kept_iff`).
-/

namespace Kobzar

open Reading Writer Overwriting

namespace HeapWrite

/-- The writer after calls, whatever each of them returns. -/
def after (this : HeapWrite) (calls : List WriteCall) : HeapWrite := calls.foldl (fun this call => (call.run this).2) this

/-! ## What an offset designates -/

/-- An offset designates a place: a move of a writer to the offset, if it succeeds, leaves the writer there, and a
jump of a reader to it, if it succeeds, leaves the file of the reader and the start of the record there. -/
structure Designates (offset : U32) (place : Nat) : Prop where
  move : ∀ (this : HeapWrite) rooms grant this', this.moveTo offset rooms grant = (.ok (), this') →
    this'.place = place
  jump : ∀ (this : HeapRead) granted, (this.gotoRecordAt offset granted).result = .ok () →
    (this.gotoRecordAt offset granted).reader.file.file.pos = place ∧
      (this.gotoRecordAt offset granted).reader.recordStart.toNat = place

/-- An offset designates the place it is the number of, and no other. -/
theorem designates_iff {offset : U32} {place : Nat} : Designates offset place ↔ offset.toNat = place := by
  constructor
  · intro h
    exact (h.jump (HeapRead.new { contents := [], pos := 0 }) true rfl).1
  · rintro rfl
    refine ⟨fun this rooms grant this' hok => ?_, fun this granted hok => ?_⟩
    · exact (BufWriter.seek_ok (outcome_ok hok)).2 _ rfl
    · cases granted with
      | false => cases hok
      | true =>
        refine ⟨rfl, ?_⟩
        simp only [HeapRead.gotoRecordAt, if_true, BitVec.toNat_setWidth]
        have := offset.isLt
        omega

/-! ## What `position` returns -/

/-- `position` returns an offset when the seek succeeds, and it is where the writer is then, cut to 32 bits. -/
theorem position_ok {this this' : HeapWrite} {rooms : List Room} {grant : SeekGrant} {offset : U32}
    (h : this.position rooms grant = (.ok offset, this')) :
    (this.on rooms).seek none grant = (true, this'.file) ∧ offset = BitVec.ofNat 32 this'.place := by
  unfold position at h
  rcases hout : outcome ((this.on rooms).seek none grant) with ⟨_ | _, mid⟩
  · rw [hout] at h
    cases h
  · rw [hout] at h
    cases h
    have hseek := outcome_ok hout
    refine ⟨hseek, ?_⟩
    rw [place, Overwriting.place, (BufWriter.seek_ok hseek).1, List.length_nil, Nat.add_zero]

/-- When the device refuses nothing, `position` leaves a clear writer where it was. -/
theorem place_position {this this' : HeapWrite} (hclear : this.Clear) {rooms : List Room} {grant : SeekGrant}
    {offset : U32} (h : this.position rooms grant = (.ok offset, this')) (hkept : this'.refused = this.refused) :
    this'.place = this.place := by
  obtain ⟨hseek, -⟩ := position_ok h
  have hkept' : ((this.on rooms).seek none grant).2.refused = (this.on rooms).refused := by
    rw [hseek]
    exact hkept
  have hplace := BufWriter.place_seek (hclear.on rooms).1 (hclear.on rooms).2 hkept'
  rw [hseek, Option.getD_none, ite_self] at hplace
  exact hplace

/-- A device that has room for everything and makes every seek lets `position` of a clear writer return an offset. -/
theorem position_of_granted {this : HeapWrite} (hclear : this.Clear) :
    ∃ this', this.position [] grantSeek = (.ok (BitVec.ofNat 32 this.place), this') ∧
      this'.refused = this.refused := by
  have hkept : ((this.on []).seek none grantSeek).2.refused = (this.on []).refused :=
    BufWriter.refused_seek_of_rooms (hclear.on []).2 rfl none grantSeek
  obtain ⟨inner, -, -, -, -, heq⟩ := BufWriter.seek_of_clear (hclear.on []).1 (hclear.on []).2 hkept
  have hposition : this.position [] grantSeek =
      (.ok (BitVec.ofNat 32 (sought inner none true).sink.pos), { file := ⟨sought inner none true, none⟩ }) := by
    rw [position, heq]
    rfl
  rw [heq] at hkept
  refine ⟨_, ?_, hkept⟩
  rw [← place_position hclear hposition hkept, ← (position_ok hposition).2]
  exact hposition

/-- The position of a writer is kept: an offset that `position` returns designates the place that the writer was
at, when the device refuses none of what is written out for it. -/
def PositionKept (this : HeapWrite) : Prop :=
  ∀ rooms grant offset this', this.position rooms grant = (.ok offset, this') → this'.refused = this.refused →
    Designates offset this.place

/-- As long as the device refuses nothing, calls leave a new writer clear. -/
theorem clear_after (file : Reading.File U8) {calls : List WriteCall} (htaken : ((new file).after calls).refused = 0) :
    ((new file).after calls).Clear := by
  induction calls using List.reverseRecOn with
  | nil => exact ⟨rfl, rfl⟩
  | append_singleton calls call ih =>
    have hafter : (new file).after (calls ++ [call]) = (call.run ((new file).after calls)).2 := by
      rw [after, List.foldl_append]
      rfl
    rw [hafter] at htaken ⊢
    have hle := ((new file).after calls).refused_run call
    have hbefore : ((new file).after calls).refused = 0 := by omega
    exact (ih hbefore).run (by omega)

end HeapWrite

/-- When positions survive the round trip. For every heap file, and after any calls of the writer, whatever each
returned: an offset that `position` returns designates the place where the writer is then exactly when that is
below `2 ^ 32`. While the device refuses no write, that is the place it was asked at, so that every offset returned
designates this place exactly when it is below `2 ^ 32`; at any other `position` returns an offset all the same,
when the device makes the seek. -/
theorem position_kept_iff (file : Reading.File U8) (calls : List WriteCall) :
    let this := (HeapWrite.new file).after calls
    (∀ rooms grant offset this', this.position rooms grant = (.ok offset, this') →
      (HeapWrite.Designates offset this'.place ↔ this'.place < 2 ^ 32)) ∧
    (this.refused = 0 → (this.PositionKept ↔ this.place < 2 ^ 32)) := by
  intro this
  have hcut : ∀ n, (BitVec.ofNat 32 n).toNat = n ↔ n < 2 ^ 32 := by
    intro n
    rw [BitVec.toNat_ofNat, Nat.mod_eq_iff_lt (by norm_num)]
  refine ⟨fun rooms grant offset this' hposition => ?_, fun htaken => ?_⟩
  · rw [HeapWrite.designates_iff, (HeapWrite.position_ok hposition).2, hcut]
  · have hclear : this.Clear := HeapWrite.clear_after file htaken
    constructor
    · intro hkept
      obtain ⟨this', hposition, hsame⟩ := HeapWrite.position_of_granted hclear
      exact (hcut _).mp (HeapWrite.designates_iff.mp (hkept _ _ _ _ hposition hsame))
    · intro hlt rooms grant offset this' hposition hsame
      rw [HeapWrite.designates_iff, (HeapWrite.position_ok hposition).2,
        HeapWrite.place_position hclear hposition hsame, hcut]
      exact hlt

/-- A byte is written at the last offset there is: the writer is at 4 GiB then, and `position` returns offset 0. -/
theorem position_wraps :
    let this := (HeapWrite.new noBytes).after [.moveTo 0xffffffff [] grantSeek, .writeInline [1] []]
    this.place = 2 ^ 32 ∧ (∃ this', this.position [] grantSeek = (.ok 0, this')) ∧ ¬this.PositionKept := by
  intro this
  have hpos : this.file.sink.pos = (0xffffffff : U32).toNat := rfl
  have hoffset : (0xffffffff : U32).toNat = 0xffffffff := by decide
  have hbuffer : this.file.buffer = [1] := rfl
  have hplace : this.place = 2 ^ 32 := by
    rw [HeapWrite.place, Overwriting.place, hpos, hoffset, hbuffer]
    norm_num
  obtain ⟨this', hposition, hsame⟩ := @HeapWrite.position_of_granted this ⟨rfl, rfl⟩
  refine ⟨hplace, ⟨this', ?_⟩, fun hkept => ?_⟩
  · rw [hplace] at hposition
    exact hposition
  · have hdesignates := HeapWrite.designates_iff.mp (hkept _ _ _ _ hposition hsame)
    rw [hplace] at hdesignates
    norm_num at hdesignates

end Kobzar
