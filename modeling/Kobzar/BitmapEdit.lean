import Kobzar.Library.Loop
import Kobzar.Library.Bits
import Kobzar.Machine

/-!
# Collected edits of a bitmap

`BitmapEdit` collects writes of small fields into a bitmap, to be merged into the words on disk in one go (`applyTo`). It
keeps the new bits and a mask of the bits it changed. The fields are recorded as they should be, last writer wins
(`run_bitmap`); the mask is never written, so the merge can set a bit and never clears one (`applyTo_exact_iff`).
-/

namespace Kobzar

open Loop Bits

/-- Edits over a bitmap: the new values, and the mask of changed bits. -/
structure BitmapEdit where
  bitmap : List U64
  mask : List U64
  deriving DecidableEq, Repr

namespace BitmapEdit

/-- No edits of a bitmap of `bits` bits. -/
def new (bits : Nat) : BitmapEdit :=
  let len := bits / 64 + 1
  { bitmap := List.replicate len 0, mask := List.replicate len 0 }

/-- Write `size` bits of one word, from bit `bit` on. -/
def setInner (edit : BitmapEdit) (word : Nat) (bit size value : U8) : Outcome BitmapEdit := do
  let mask ← shl ((← shl 1#64 size.toNat) - 1#64) bit.toNat
  let value : U64 := value.setWidth 64
  let bitmap ← store edit.bitmap word ((← index edit.bitmap word) &&& ~~~mask)
  let bitmap ← store bitmap word ((← index bitmap word) ||| (← shl value bit.toNat))
  return { edit with bitmap := bitmap }

/-- Record the field of `size` bits at `offset` as `value`. A field that straddles two words is written in two parts. -/
def set (edit : BitmapEdit) (offset : Nat) (size value : U8) : Outcome BitmapEdit := do
  let word := offset / 64
  let bit : U8 := BitVec.ofNat 8 (offset % 64)
  let overflow := decide (64 < (← addU8 size bit))
  assertEq value (value &&& ((← shl 1#8 size.toNat) - 1#8))
  if overflow then
    let edit ← edit.setInner (word + 1) 0 (size + bit - 64) (← shr value (64 - bit).toNat)
    edit.setInner word bit (64 - bit) (value &&& ((← shl 1#8 (64 - bit).toNat) - 1#8))
  else
    edit.setInner word bit size value

/-- Merge the edits into a buffer of words. -/
def applyTo (edit : BitmapEdit) (buf : List U64) : Outcome (List U64) := do
  assertEq buf.length edit.bitmap.length
  forRange edit.bitmap.length buf fun i buf => do
    let word ← index edit.bitmap i
    store buf i (((← index buf i) &&& ~~~(← index edit.mask i)) ||| word)

end BitmapEdit

/-- One call of `set` on a bitmap of `bits` bits: a field of at most seven bits that lies in the bitmap, and a
value that fits the field. -/
structure FieldEdit (bits : Nat) where
  offset : Nat
  size : U8
  value : U8
  size_le : size.toNat ≤ 7
  in_range : offset + size.toNat ≤ bits
  fits : value.toNat < 2 ^ size.toNat

namespace FieldEdit

variable {bits : Nat}

/-- The edit writes bit `p`. -/
def covers (e : FieldEdit bits) (p : Nat) : Bool := decide (e.offset ≤ p ∧ p < e.offset + e.size.toNat)

/-- What the edit writes at bit `p`. -/
def bitFor (e : FieldEdit bits) (p : Nat) : Bool := e.value.getLsbD (p - e.offset)

/-- The bit that the last edit covering `p` writes there, if one covers it. -/
def lastWritten (edits : List (FieldEdit bits)) (p : Nat) : Option Bool :=
  (edits.reverse.find? (·.covers p)).map (·.bitFor p)

/-- The calls of `set` one after the other, from no edits. -/
def run (edits : List (FieldEdit bits)) : Outcome BitmapEdit :=
  edits.foldlM (fun edit e => edit.set e.offset e.size e.value) (BitmapEdit.new bits)

end FieldEdit

/-! ## Recording a field -/

namespace BitmapEdit

/-- A value that fits `size` bits has no bit from `size` on. -/
theorem getLsbD_of_fits {w size k : Nat} {value : BitVec w} (hv : value.toNat < 2 ^ size) (hk : size ≤ k) :
    value.getLsbD k = false :=
  Nat.testBit_lt_two_pow (Nat.lt_of_lt_of_le hv (Nat.pow_le_pow_right (by decide) hk))

/-- `setInner` in range writes the bits of its field and keeps the others; the mask is not touched. -/
theorem setInner_ok (edit : BitmapEdit) (word : Nat) (bit size value : U8) (hw : word < edit.bitmap.length)
    (hs : size.toNat ≤ 7) (hbit : bit.toNat < 64) (hv : value.toNat < 2 ^ size.toNat) :
    ∃ edit', edit.setInner word bit size value = .ok edit' ∧ edit'.mask = edit.mask ∧
      edit'.bitmap.length = edit.bitmap.length ∧
      ∀ p, bitAt edit'.bitmap p = if p / 64 = word ∧ bit.toNat ≤ p % 64 ∧ p % 64 < bit.toNat + size.toNat then
        value.getLsbD (p % 64 - bit.toNat) else bitAt edit.bitmap p := by
  have hs' : size.toNat < 64 := by omega
  have hw' : ∀ x, word < (edit.bitmap.set word x).length := fun x => by simpa using hw
  obtain ⟨mask, hmask⟩ : ∃ mask, mask = ((1#64 <<< size.toNat) - 1#64) <<< bit.toNat := ⟨_, rfl⟩
  obtain ⟨cleared, hcleared⟩ : ∃ cleared, cleared = edit.bitmap[word] &&& ~~~mask := ⟨_, rfl⟩
  obtain ⟨written, hwritten⟩ : ∃ written, written = cleared ||| (value.setWidth 64 <<< bit.toNat) := ⟨_, rfl⟩
  refine ⟨{ edit with bitmap := (edit.bitmap.set word cleared).set word written }, ?_, rfl, by simp, ?_⟩
  · simp only [setInner, shl_of_lt _ hs', shl_of_lt _ hbit, ok_bind, index_of_lt hw, store_of_lt hw, index_of_lt (hw' _),
      store_of_lt (hw' _), List.getElem_set_self, ← hmask, ← hcleared, ← hwritten]
    rfl
  · intro p
    have hk : p % 64 < 64 := Nat.mod_lt p (by decide)
    rw [bitAt_set (hw' _), bitAt_set hw]
    by_cases hp : p / 64 = word
    · have hold : bitAt edit.bitmap p = edit.bitmap[word].getLsbD (p % 64) := by
        rw [bitAt, hp, List.getD_eq_getElem _ _ hw]
      have hin : mask.getLsbD (p % 64) = decide (bit.toNat ≤ p % 64 ∧ p % 64 < bit.toNat + size.toNat) := by
        rw [hmask]
        exact getLsbD_fieldMask hs' hk
      rw [if_pos hp, hwritten, hcleared, hold]
      simp only [BitVec.getLsbD_or, BitVec.getLsbD_and, BitVec.getLsbD_not, BitVec.getLsbD_shiftLeft,
        BitVec.getLsbD_setWidth, hin, hk, hp, decide_true, true_and, Bool.true_and]
      by_cases hfld : bit.toNat ≤ p % 64 ∧ p % 64 < bit.toNat + size.toNat
      · have hlt : p % 64 - bit.toNat < 64 := by omega
        simp [hfld, hlt, Nat.not_lt.mpr hfld.1]
      · rw [if_neg hfld, decide_eq_false hfld]
        rcases Nat.lt_or_ge (p % 64) bit.toNat with hlt | hge
        · simp [hlt]
        · rw [getLsbD_of_fits hv (k := p % 64 - bit.toNat) (by omega)]
          simp
    · simp [hp]

/-- The bit offset of a field within its word, as a byte. -/
theorem toNat_bit (offset : Nat) : (BitVec.ofNat 8 (offset % 64)).toNat = offset % 64 := by
  simp only [BitVec.toNat_ofNat]
  omega

/-- A value that fits the field passes the assertion on it. -/
theorem fits_and {size value : U8} (hs : size.toNat ≤ 7) (hv : value.toNat < 2 ^ size.toNat) :
    value &&& ((1#8 <<< size.toNat) - 1#8) = value := by
  apply BitVec.eq_of_getLsbD_eq
  intro k hk
  rw [BitVec.getLsbD_and, getLsbD_lowMask (by omega)]
  by_cases h : k < size.toNat
  · simp [h]
  · simp [h, getLsbD_of_fits hv (Nat.not_lt.mp h)]

section Set

variable {edit : BitmapEdit} {offset : Nat} {size value bit : U8} (hbit : bit = BitVec.ofNat 8 (offset % 64))
  (hs : size.toNat ≤ 7) (hv : value.toNat < 2 ^ size.toNat)
include hbit hs

/-- The field ends at most seven bits behind its word, so that the sum does not overflow. -/
theorem toNat_size_add_bit : bit.toNat = offset % 64 ∧ (size + bit).toNat = size.toNat + bit.toNat := by
  have hnat : bit.toNat = offset % 64 := by rw [hbit, toNat_bit]
  refine ⟨hnat, ?_⟩
  rw [BitVec.toNat_add]
  omega

/-- The sizes of the two parts of a field that straddles two words. -/
theorem toNat_part_sizes (hover : 64 < size.toNat + bit.toNat) :
    (64 - bit).toNat = 64 - bit.toNat ∧ (size + bit - 64).toNat = size.toNat + bit.toNat - 64 := by
  obtain ⟨hnat, hsum⟩ := toNat_size_add_bit hbit hs
  constructor
  · rw [BitVec.toNat_sub_of_le (by rw [BitVec.le_def]; simp; omega)]
    rfl
  · rw [BitVec.toNat_sub_of_le (by rw [BitVec.le_def, hsum]; simp; omega), hsum]
    rfl

include hv

/-- The two parts of a value that fits its field fit the two parts of the field. -/
theorem parts_fit (hover : 64 < size.toNat + bit.toNat) :
    (value >>> (64 - bit).toNat).toNat < 2 ^ (size + bit - 64).toNat ∧
      (value &&& ((1#8 <<< (64 - bit).toNat) - 1#8)).toNat < 2 ^ (64 - bit).toNat := by
  obtain ⟨hnat, -⟩ := toNat_size_add_bit hbit hs
  obtain ⟨hlow, hhigh⟩ := toNat_part_sizes hbit hs hover
  constructor
  · rw [BitVec.toNat_ushiftRight, Nat.shiftRight_eq_div_pow, Nat.div_lt_iff_lt_mul (Nat.two_pow_pos _), ← Nat.pow_add,
      hlow, hhigh]
    have : size.toNat + bit.toNat - 64 + (64 - bit.toNat) = size.toNat := by omega
    rwa [this]
  · rw [BitVec.toNat_and, toNat_lowMask (by omega)]
    exact Nat.and_lt_two_pow _ (Nat.sub_lt (Nat.two_pow_pos _) (by decide))

/-- `set` is one write for a field in one word, and two for one that straddles two words: its high bits open the
next word, its low bits close this one. -/
theorem set_eq : edit.set offset size value = if 64 < size.toNat + bit.toNat then do
      let edit ← edit.setInner (offset / 64 + 1) 0 (size + bit - 64) (value >>> (64 - bit).toNat)
      edit.setInner (offset / 64) bit (64 - bit) (value &&& ((1#8 <<< (64 - bit).toNat) - 1#8))
    else edit.setInner (offset / 64) bit size value := by
  obtain ⟨hnat, hsum⟩ := toNat_size_add_bit hbit hs
  have hadd : addU8 size bit = .ok (size + bit) := addU8_of_lt (by omega)
  have hshl : shl 1#8 size.toNat = .ok (1#8 <<< size.toNat) := shl_of_lt _ (by omega)
  have hlt : (64 : U8) < size + bit ↔ 64 < size.toNat + bit.toNat := by
    rw [BitVec.lt_def, hsum]
    rfl
  simp only [BitmapEdit.set, ← hbit, hadd, hshl, ok_bind, fits_and hs hv, assertEq_self, hlt, decide_eq_true_eq]
  split
  · rename_i hover
    have hlow := (toNat_part_sizes hbit hs hover).1
    rw [shr_of_lt _ (by omega), shl_of_lt _ (by omega)]
    rfl
  · rfl

/-- `set` records a field that lies in one word. -/
theorem set_within (hw : offset / 64 < edit.bitmap.length) (hover : ¬64 < size.toNat + bit.toNat) :
    ∃ edit', edit.set offset size value = .ok edit' ∧ edit'.mask = edit.mask ∧
      edit'.bitmap.length = edit.bitmap.length ∧
      ∀ p, bitAt edit'.bitmap p = if offset ≤ p ∧ p < offset + size.toNat then value.getLsbD (p - offset)
        else bitAt edit.bitmap p := by
  obtain ⟨hnat, -⟩ := toNat_size_add_bit hbit hs
  obtain ⟨edit', hrun, hmask, hlen, hbits⟩ := setInner_ok edit (offset / 64) bit size value hw hs (by omega) hv
  refine ⟨edit', by rw [set_eq hbit hs hv, if_neg hover, hrun], hmask, hlen, ?_⟩
  intro p
  have hcov : (p / 64 = offset / 64 ∧ bit.toNat ≤ p % 64 ∧ p % 64 < bit.toNat + size.toNat) ↔
      (offset ≤ p ∧ p < offset + size.toNat) := by omega
  simp only [hbits, hcov]
  by_cases hc : offset ≤ p ∧ p < offset + size.toNat
  · have hsub : p % 64 - bit.toNat = p - offset := by omega
    rw [if_pos hc, if_pos hc, hsub]
  · rw [if_neg hc, if_neg hc]

/-- `set` records a field that straddles two words. -/
theorem set_straddling (hw : offset / 64 + 1 < edit.bitmap.length) (hover : 64 < size.toNat + bit.toNat) :
    ∃ edit', edit.set offset size value = .ok edit' ∧ edit'.mask = edit.mask ∧
      edit'.bitmap.length = edit.bitmap.length ∧
      ∀ p, bitAt edit'.bitmap p = if offset ≤ p ∧ p < offset + size.toNat then value.getLsbD (p - offset)
        else bitAt edit.bitmap p := by
  obtain ⟨hnat, -⟩ := toNat_size_add_bit hbit hs
  obtain ⟨hlow, hhigh⟩ := toNat_part_sizes hbit hs hover
  obtain ⟨hv1, hv2⟩ := parts_fit hbit hs hv hover
  obtain ⟨edit1, hrun1, hmask1, hlen1, hbits1⟩ := setInner_ok edit (offset / 64 + 1) 0
    (size + bit - 64) (value >>> (64 - bit).toNat) hw (by omega) (by decide) hv1
  obtain ⟨edit2, hrun2, hmask2, hlen2, hbits2⟩ := setInner_ok edit1 (offset / 64) bit
    (64 - bit) (value &&& ((1#8 <<< (64 - bit).toNat) - 1#8)) (by omega) (by omega) (by omega) hv2
  refine ⟨edit2, ?_, hmask2.trans hmask1, hlen2.trans hlen1, fun p => ?_⟩
  · rw [set_eq hbit hs hv, if_pos hover, hrun1, ok_bind, hrun2]
  · have hzero : (0 : U8).toNat = 0 := rfl
    simp only [hbits2, hbits1, hlow, hhigh, hzero]
    by_cases hlowhalf : p / 64 = offset / 64 ∧ bit.toNat ≤ p % 64 ∧ p % 64 < bit.toNat + (64 - bit.toNat)
    · have hcov : offset ≤ p ∧ p < offset + size.toNat := by omega
      have hsub : p % 64 - bit.toNat = p - offset := by omega
      have hin : p - offset < 64 - bit.toNat := by omega
      rw [if_pos hlowhalf, if_pos hcov, hsub, BitVec.getLsbD_and, getLsbD_lowMask (by omega), decide_eq_true hin,
        Bool.and_true]
    · rw [if_neg hlowhalf]
      by_cases hhighhalf : p / 64 = offset / 64 + 1 ∧ 0 ≤ p % 64 ∧ p % 64 < 0 + (size.toNat + bit.toNat - 64)
      · have hcov : offset ≤ p ∧ p < offset + size.toNat := by omega
        have hsub : 64 - bit.toNat + (p % 64 - 0) = p - offset := by omega
        rw [if_pos hhighhalf, if_pos hcov, BitVec.getLsbD_ushiftRight, hsub]
      · have hcov : ¬(offset ≤ p ∧ p < offset + size.toNat) := by omega
        rw [if_neg hhighhalf, if_neg hcov]

end Set

/-- `set` records exactly its field, whether or not the field straddles two words, and does not panic; the mask is not
touched. -/
theorem set_ok {bits : Nat} {edit : BitmapEdit} (hlen : edit.bitmap.length = bits / 64 + 1) (e : FieldEdit bits) :
    ∃ edit', edit.set e.offset e.size e.value = .ok edit' ∧ edit'.mask = edit.mask ∧
      edit'.bitmap.length = edit.bitmap.length ∧
      ∀ p, bitAt edit'.bitmap p = if e.covers p then e.bitFor p else bitAt edit.bitmap p := by
  obtain ⟨offset, size, value, hs, hr, hv⟩ := e
  simp only [FieldEdit.covers, FieldEdit.bitFor, decide_eq_true_eq] at hs hr hv ⊢
  have hnat := toNat_bit offset
  by_cases hover : 64 < size.toNat + (BitVec.ofNat 8 (offset % 64)).toNat
  · exact set_straddling rfl hs hv (by omega) hover
  · exact set_within rfl hs hv (by omega) hover

end BitmapEdit

/-! ## A sequence of edits -/

namespace FieldEdit

variable {bits : Nat}

/-- One more edit: what it covers it wrote last, elsewhere the edits before it decide. -/
theorem lastWritten_concat (edits : List (FieldEdit bits)) (e : FieldEdit bits) (p : Nat) :
    lastWritten (edits ++ [e]) p = if e.covers p then some (e.bitFor p) else lastWritten edits p := by
  unfold lastWritten
  rw [List.reverse_concat, List.find?_cons]
  split <;> simp_all

/-- A bit that some edit wrote lies in the bitmap. -/
theorem lt_of_lastWritten {edits : List (FieldEdit bits)} {p : Nat} {b : Bool} (h : lastWritten edits p = some b) :
    p < bits := by
  simp only [lastWritten, Option.map_eq_some_iff] at h
  obtain ⟨e, he, -⟩ := h
  have hcov := List.find?_some he
  have hr := e.in_range
  simp only [covers, decide_eq_true_eq] at hcov
  omega

/-- After any calls of `set` the edits hold, bit by bit, what the last call covering the bit wrote, and 0 where
none did. No call panics, and the mask still says that nothing changed. -/
theorem run_bitmap (edits : List (FieldEdit bits)) : ∃ edit, run edits = .ok edit ∧
    edit.bitmap.length = bits / 64 + 1 ∧ edit.mask = List.replicate (bits / 64 + 1) 0 ∧
    ∀ p, bitAt edit.bitmap p = (lastWritten edits p).getD false := by
  induction edits using List.reverseRecOn with
  | nil => exact ⟨_, rfl, by simp [BitmapEdit.new], rfl, by simp [BitmapEdit.new, lastWritten]⟩
  | append_singleton edits e ih =>
    obtain ⟨edit, hrun, hlen, hmask, hbits⟩ := ih
    obtain ⟨edit', hset, hmask', hlen', hbits'⟩ := BitmapEdit.set_ok hlen e
    refine ⟨edit', ?_, hlen'.trans hlen, hmask'.trans hmask, ?_⟩
    · rw [run, List.foldlM_append]
      change (run edits >>= _) = _
      rw [hrun, ok_bind, List.foldlM_cons, hset]
      rfl
    · intro p
      rw [hbits', lastWritten_concat, hbits]
      split <;> rfl

/-- What an edit wrote at a bit that no later edit covers is what was last written there. -/
theorem lastWritten_of_last {front back : List (FieldEdit bits)} {e : FieldEdit bits} {p : Nat} (hcov : e.covers p = true)
    (hback : ∀ later ∈ back, later.covers p = false) : lastWritten (front ++ e :: back) p = some (e.bitFor p) := by
  induction back using List.reverseRecOn with
  | nil => rw [lastWritten_concat, if_pos hcov]
  | append_singleton back later ih =>
    have hlater := hback later (List.mem_append_right _ (List.mem_singleton_self _))
    rw [← List.cons_append, ← List.append_assoc, lastWritten_concat, hlater, if_neg Bool.false_ne_true]
    exact ih fun other hother => hback other (List.mem_append_left _ hother)

/-- Where no edit covers a bit, nothing was written. -/
theorem lastWritten_of_none {edits : List (FieldEdit bits)} {p : Nat} (h : ∀ e ∈ edits, e.covers p = false) :
    lastWritten edits p = none := by
  rw [lastWritten, Option.map_eq_none_iff, List.find?_eq_none]
  intro e he
  rw [h e (List.mem_reverse.mp he)]
  exact Bool.false_ne_true

/-- The last writer wins, bit by bit. Any calls of `set` with fields of at most seven bits that lie in the bitmap
and values that fit them are recorded without a panic, in as many words as the bitmap has; a bit of a field that no
later call covers is that bit of the field's value, whether or not a field straddles two words, and a bit that no
call covers is 0. -/
theorem last_writer_wins (edits : List (FieldEdit bits)) : ∃ edit, run edits = .ok edit ∧
    edit.bitmap.length = bits / 64 + 1 ∧
    (∀ front e back p, edits = front ++ e :: back → e.offset ≤ p → p < e.offset + e.size.toNat →
      (∀ later ∈ back, ¬(later.offset ≤ p ∧ p < later.offset + later.size.toNat)) →
        bitAt edit.bitmap p = e.value.getLsbD (p - e.offset)) ∧
    ∀ p, (∀ e ∈ edits, ¬(e.offset ≤ p ∧ p < e.offset + e.size.toNat)) → bitAt edit.bitmap p = false := by
  obtain ⟨edit, hrun, hlen, -, hbits⟩ := run_bitmap edits
  refine ⟨edit, hrun, hlen, ?_, ?_⟩
  · intro front e back p hedits hlow hup hback
    have hlast : lastWritten (front ++ e :: back) p = some (e.bitFor p) :=
      lastWritten_of_last (decide_eq_true ⟨hlow, hup⟩) fun later hlater => decide_eq_false (hback later hlater)
    rw [hbits, hedits, hlast]
    rfl
  · intro p hnone
    rw [hbits, lastWritten_of_none fun e he => decide_eq_false (hnone e he)]
    rfl

end FieldEdit

/-! ## Merging the edits into a buffer -/

namespace BitmapEdit

/-- The words before word `i` are merged: they keep the bits the mask leaves alone and have the bits of the bitmap. -/
def MergedTo (edit : BitmapEdit) (buf : List U64) (i : Nat) (out : List U64) : Prop :=
  out.length = buf.length ∧ ∀ p < 64 * buf.length, bitAt out p =
    if p / 64 < i then (bitAt buf p && !bitAt edit.mask p) || bitAt edit.bitmap p else bitAt buf p

/-- One pass of the merge. -/
theorem MergedTo.step {edit : BitmapEdit} {buf out : List U64} {i : Nat} (hm : edit.mask.length = edit.bitmap.length)
    (hb : buf.length = edit.bitmap.length) (hi : i < edit.bitmap.length) (h : edit.MergedTo buf i out) :
    ∃ out', (do
      let word ← index edit.bitmap i
      store out i (((← index out i) &&& ~~~(← index edit.mask i)) ||| word)) = .ok out' ∧
        edit.MergedTo buf (i + 1) out' := by
  obtain ⟨hlen, hbits⟩ := h
  have hout : i < out.length := by omega
  have hmask : i < edit.mask.length := by omega
  refine ⟨out.set i ((out[i] &&& ~~~edit.mask[i]) ||| edit.bitmap[i]), ?_, by simpa using hlen, ?_⟩
  · simp only [index_of_lt hi, index_of_lt hout, index_of_lt hmask, ok_bind, store_of_lt hout]
  · intro p hp
    have hk : p % 64 < 64 := Nat.mod_lt p (by decide)
    rw [bitAt_set hout]
    by_cases hpi : p / 64 = i
    · have hold := hbits p hp
      rw [if_neg (by omega), bitAt, hpi, List.getD_eq_getElem _ _ hout] at hold
      have hm' : bitAt edit.mask p = edit.mask[i].getLsbD (p % 64) := by
        rw [bitAt, hpi, List.getD_eq_getElem _ _ hmask]
      have hw' : bitAt edit.bitmap p = edit.bitmap[i].getLsbD (p % 64) := by
        rw [bitAt, hpi, List.getD_eq_getElem _ _ hi]
      rw [if_pos hpi, if_pos (by omega), ← hold, hm', hw', BitVec.getLsbD_or, BitVec.getLsbD_and, BitVec.getLsbD_not]
      simp [hk]
    · have hstep : p / 64 < i + 1 ↔ p / 64 < i := by omega
      rw [if_neg hpi, hbits p hp]
      simp only [hstep]

/-- The merge keeps the bits the mask leaves alone and adds the bits of the bitmap. -/
theorem applyTo_ok (edit : BitmapEdit) (buf : List U64) (hm : edit.mask.length = edit.bitmap.length)
    (hb : buf.length = edit.bitmap.length) : ∃ out, edit.applyTo buf = .ok out ∧ out.length = buf.length ∧
      ∀ p < 64 * buf.length, bitAt out p = ((bitAt buf p && !bitAt edit.mask p) || bitAt edit.bitmap p) := by
  obtain ⟨out, hrun, hlen, hbits⟩ := forRange_ok edit.bitmap.length buf _ (edit.MergedTo buf) ⟨rfl, by simp⟩
    fun i hi _ h => MergedTo.step hm hb hi h
  refine ⟨out, ?_, hlen, ?_⟩
  · simp only [applyTo, hb, assertEq_self, ok_bind]
    exact hrun
  · intro p hp
    rw [hbits p hp, if_pos (by omega)]

end BitmapEdit

open FieldEdit in
/-- When the merge does what the edits say. The edits are recorded and merged without a panic, and every bit of the
merged words is the bit the last edit covering it wrote, or the buffer's own bit where none covers it, exactly when
no bit that was last written as 0 is set in the buffer: the mask is never written, so the merge clears nothing. -/
theorem applyTo_exact_iff (bits : Nat) (edits : List (FieldEdit bits)) (buf : Vector U64 (bits / 64 + 1)) :
    (∃ edit out, run edits = .ok edit ∧ edit.applyTo buf.toList = .ok out ∧
      ∀ p < 64 * (bits / 64 + 1), bitAt out p = (lastWritten edits p).getD (bitAt buf.toList p)) ↔
      ∀ p, lastWritten edits p = some false → bitAt buf.toList p = false := by
  obtain ⟨edit, hrun, hlen, hmask, hbits⟩ := run_bitmap edits
  obtain ⟨out, happly, -, hout⟩ := BitmapEdit.applyTo_ok edit buf.toList (by simp [hmask, hlen])
    (by simp [hlen])
  rw [Vector.length_toList] at hout
  -- the merged bit is the buffer's bit or the recorded one
  have hmerged : ∀ p < 64 * (bits / 64 + 1),
      bitAt out p = (bitAt buf.toList p || (lastWritten edits p).getD false) := by
    intro p hp
    rw [hout p hp, hmask, hbits]
    simp
  constructor
  · rintro ⟨edit', out', hrun', happly', hspec⟩ p hp
    have hedit : edit' = edit := by
      rw [hrun] at hrun'
      exact (Except.ok.inj hrun').symm
    subst hedit
    have hout' : out' = out := by
      rw [happly] at happly'
      exact (Except.ok.inj happly').symm
    subst hout'
    have hlt : p < 64 * (bits / 64 + 1) := by
      have := lt_of_lastWritten hp
      omega
    have hb := hspec p hlt
    rw [hmerged p hlt, hp] at hb
    simpa using hb
  · intro h
    refine ⟨edit, out, hrun, happly, ?_⟩
    intro p hp
    rw [hmerged p hp]
    cases hl : lastWritten edits p with
    | none => simp
    | some b =>
      cases b with
      | true => simp
      | false => simp [h p hl]

/-- Clearing bit 0 of a word in which it is set: the merge returns the word unchanged. -/
theorem applyTo_cannot_clear :
    let clear : FieldEdit 1 :=
      { offset := 0, size := 1, value := 0, size_le := by decide, in_range := by decide, fits := by decide }
    FieldEdit.lastWritten [clear] 0 = some false ∧
      (do (← FieldEdit.run [clear]).applyTo [1]) = .ok [1] ∧ bitAt [1#64] 0 = true := by
  decide

end Kobzar
