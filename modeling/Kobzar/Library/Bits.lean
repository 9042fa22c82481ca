import Mathlib

/-!
# Bit strings over words

A list of `w`-bit words read as one bit string: bit `p` is bit `p % w` of word `p / w`. The lemmas say what writing
one word does to the string, when two lists of words are the same, and which bits a field mask `((1 << size) - 1)
<< bit` has; that a small word has none of the bits of one shifted past it; that a flag, once set, hides no other
bit; and when a flag of one bit is set.
-/

namespace Bits

variable {w : Nat}

/-- Bit `p` of a list of words, read as one bit string. -/
def bitAt (ws : List (BitVec w)) (p : Nat) : Bool := (ws.getD (p / w) 0#w).getLsbD (p % w)

/-- Writing one word changes the bits of that word and no others. -/
theorem bitAt_set {ws : List (BitVec w)} {j : Nat} (hj : j < ws.length) (x : BitVec w) (p : Nat) :
    bitAt (ws.set j x) p = if p / w = j then x.getLsbD (p % w) else bitAt ws p := by
  unfold bitAt
  by_cases h : p / w = j
  · subst h
    simp [List.getD, hj]
  · rw [if_neg h]
    simp only [List.getD, List.getElem?_set_ne (Ne.symm h)]

/-- A list of zero words has no bit set. -/
@[simp] theorem bitAt_replicate_zero (n p : Nat) : bitAt (List.replicate n 0#w) p = false := by
  unfold bitAt
  rw [List.getD, List.getElem?_replicate]
  split <;> simp

/-- Bit `w * i + k` is bit `k` of word `i`. -/
theorem bitAt_mul_add {ws : List (BitVec w)} {k : Nat} (hk : k < w) (i : Nat) :
    bitAt ws (w * i + k) = (ws.getD i 0#w).getLsbD k := by
  have hw : 0 < w := by omega
  unfold bitAt
  rw [Nat.mul_add_div hw, Nat.div_eq_of_lt hk, Nat.add_zero, Nat.mul_add_mod, Nat.mod_eq_of_lt hk]

/-- Two lists of as many words with the same bits are equal. -/
theorem ext_bitAt {ws vs : List (BitVec w)} (hlen : ws.length = vs.length)
    (h : ∀ p < w * ws.length, bitAt ws p = bitAt vs p) : ws = vs := by
  apply List.ext_getElem hlen
  intro i hi hi'
  apply BitVec.eq_of_getLsbD_eq
  intro k hk
  have hp : w * i + k < w * ws.length := by
    have := Nat.mul_le_mul_left w (Nat.succ_le_of_lt hi)
    rw [Nat.mul_succ] at this
    omega
  have hb := h _ hp
  rwa [bitAt_mul_add hk, bitAt_mul_add hk, List.getD_eq_getElem _ _ hi, List.getD_eq_getElem _ _ hi'] at hb

/-- The mask of the low `size` bits, as a number. -/
theorem toNat_lowMask {size : Nat} (hs : size < w) : ((1#w <<< size) - 1#w).toNat = 2 ^ size - 1 := by
  have hpow : 2 ^ size < 2 ^ w := Nat.pow_lt_pow_right (by decide) hs
  have hone : (1#w).toNat = 1 := by
    rw [BitVec.toNat_ofNat, Nat.mod_eq_of_lt (Nat.one_lt_two_pow (by omega))]
  have hshift : (1#w <<< size).toNat = 2 ^ size := by
    rw [BitVec.toNat_shiftLeft, hone, Nat.one_shiftLeft, Nat.mod_eq_of_lt hpow]
  have hle : 1#w ≤ 1#w <<< size := by
    rw [BitVec.le_def, hone, hshift]
    exact Nat.one_le_two_pow
  rw [BitVec.toNat_sub_of_le hle, hone, hshift]

/-- The mask of the low `size` bits has those bits and no others. -/
theorem getLsbD_lowMask {size : Nat} (hs : size < w) (k : Nat) :
    ((1#w <<< size) - 1#w).getLsbD k = decide (k < size) := by
  rw [BitVec.getLsbD, toNat_lowMask hs, Nat.testBit_two_pow_sub_one]

/-- The mask of a field of `size` bits at bit `bit` covers exactly the bits of the field. -/
theorem getLsbD_fieldMask {size bit : Nat} (hs : size < w) {k : Nat} (hk : k < w) :
    (((1#w <<< size) - 1#w) <<< bit).getLsbD k = decide (bit ≤ k ∧ k < bit + size) := by
  rw [BitVec.getLsbD_shiftLeft, getLsbD_lowMask hs]
  by_cases h : k < bit
  · simp [h, Nat.not_le.mpr h]
  · simp only [hk, h, decide_true, decide_false, Bool.not_false, Bool.and_true, Bool.true_and, decide_eq_decide]
    omega

/-- A word below a power of two has no bit of a word shifted by its exponent. -/
theorem and_shiftLeft_eq_zero {k : Nat} {v : BitVec w} (hv : v.toNat < 2 ^ k) (x : BitVec w) : v &&& (x <<< k) = 0#w := by
  refine BitVec.eq_of_getLsbD_eq fun i hi => ?_
  rw [BitVec.getLsbD_and, BitVec.getLsbD_shiftLeft, BitVec.getLsbD_zero]
  by_cases hik : i < k
  · simp [hik]
  · have hbit : v.getLsbD i = false := by
      rw [BitVec.getLsbD, Nat.testBit_lt_two_pow (Nat.lt_of_lt_of_le hv (Nat.pow_le_pow_right (by omega) (by omega)))]
    rw [hbit, Bool.false_and]

/-- Words that have none of the bits of a flag are the same when they are with the flag. -/
theorem eq_of_or_eq_or {x y flag : BitVec w} (hx : x &&& flag = 0#w) (hy : y &&& flag = 0#w)
    (h : x ||| flag = y ||| flag) : x = y := by
  have hclear : ∀ {v : BitVec w}, v &&& flag = 0#w → (v ||| flag) &&& ~~~flag = v := by
    intro v hv
    refine BitVec.eq_of_getLsbD_eq fun i hi => ?_
    have hbit := congrArg (fun word : BitVec w => word.getLsbD i) hv
    simp only [BitVec.getLsbD_and, BitVec.getLsbD_zero] at hbit
    simp only [BitVec.getLsbD_and, BitVec.getLsbD_or, BitVec.getLsbD_not, hi, decide_true, Bool.true_and]
    cases hflag : flag.getLsbD i
    · simp
    · simpa [hflag] using hbit.symm
  rw [← hclear hx, h, hclear hy]

/-- A flag of one bit. -/
theorem getLsbD_one_shiftLeft {k : Nat} (hk : k < w) (i : Nat) : (1#w <<< k).getLsbD i = decide (k = i) := by
  rw [← BitVec.twoPow_eq, BitVec.getLsbD_twoPow, decide_eq_true hk, Bool.true_and]

/-- A flag of one bit is set when the bit is. -/
theorem and_one_shiftLeft_ne_zero_iff (v : BitVec w) {k : Nat} (hk : k < w) : v &&& (1#w <<< k) ≠ 0#w ↔
    v.getLsbD k = true := by
  constructor
  · intro hne
    by_contra hnot
    refine hne (BitVec.eq_of_getLsbD_eq fun i hi => ?_)
    rw [BitVec.getLsbD_and, getLsbD_one_shiftLeft hk]
    by_cases hik : k = i
    · subst hik
      simpa using hnot
    · simp [hik]
  · intro hset hzero
    have hbit := congrArg (fun word : BitVec w => word.getLsbD k) hzero
    rw [BitVec.getLsbD_and, hset, getLsbD_one_shiftLeft hk, BitVec.getLsbD_zero] at hbit
    simp at hbit

end Bits
