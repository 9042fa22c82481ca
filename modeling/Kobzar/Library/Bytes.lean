import Mathlib

/-!
# Little-endian bytes

A number as its least significant bytes first (`toLe`), and the number that such bytes stand for (`ofLe`).
-/

namespace Bytes

/-- The `n` least significant bytes of a number, the least significant first. -/
def toLe : Nat → Nat → List (BitVec 8)
  | 0, _ => []
  | n + 1, x => BitVec.ofNat 8 x :: toLe n (x / 256)

/-- The number whose bytes these are, the least significant first. -/
def ofLe : List (BitVec 8) → Nat
  | [] => 0
  | b :: bs => b.toNat + 256 * ofLe bs

@[simp] theorem toLe_length (n x : Nat) : (toLe n x).length = n := by
  induction n generalizing x with
  | zero => rfl
  | succ n ih => simp [toLe, ih]

/-- Reading back the bytes of a number gives its residue. -/
theorem ofLe_toLe (n x : Nat) : ofLe (toLe n x) = x % 256 ^ n := by
  induction n generalizing x with
  | zero => simp [toLe, ofLe, Nat.mod_one]
  | succ n ih =>
    have h8 : (BitVec.ofNat 8 x).toNat = x % 256 := BitVec.toNat_ofNat x 8
    rw [toLe, ofLe, ih, h8, Nat.pow_succ', Nat.mod_mul]

/-- Reading back the bytes of a number that fits them gives the number. -/
theorem ofLe_toLe_of_lt {n x : Nat} (h : x < 256 ^ n) : ofLe (toLe n x) = x := by
  rw [ofLe_toLe, Nat.mod_eq_of_lt h]

/-- The number that bytes stand for fits them. -/
theorem ofLe_lt (bs : List (BitVec 8)) : ofLe bs < 256 ^ bs.length := by
  induction bs with
  | nil => simp [ofLe]
  | cons b bs ih =>
    have hb := b.isLt
    rw [ofLe, List.length_cons, Nat.pow_succ]
    omega

/-- As many bytes that stand for the same number are the same bytes. -/
theorem ofLe_inj {bs cs : List (BitVec 8)} (hlen : bs.length = cs.length) (h : ofLe bs = ofLe cs) : bs = cs := by
  induction bs generalizing cs with
  | nil => exact (List.length_eq_zero_iff.mp hlen.symm).symm
  | cons b bs ih =>
    cases cs with
    | nil => simp at hlen
    | cons c cs =>
      have hb := b.isLt
      have hc := c.isLt
      simp only [ofLe] at h
      rw [ih (by simpa using hlen) (by omega), BitVec.eq_of_toNat_eq (x := b) (y := c) (by omega)]

/-- The word of `n` bytes at a place. -/
def wordAt (n : Nat) (bs : List (BitVec 8)) (place : Nat) : BitVec (8 * n) :=
  BitVec.ofNat _ (ofLe ((bs.drop place).take n))

/-- The bytes of a word within a list are as many as it has. -/
theorem length_slice {n place : Nat} {bs : List (BitVec 8)} (h : place + n ≤ bs.length) :
    ((bs.drop place).take n).length = n := by
  rw [List.length_take, List.length_drop]
  omega

/-- The number of a word within a list. -/
theorem toNat_wordAt {n place : Nat} {bs : List (BitVec 8)} (h : place + n ≤ bs.length) :
    (wordAt n bs place).toNat = ofLe ((bs.drop place).take n) := by
  have hlt := ofLe_lt ((bs.drop place).take n)
  rw [length_slice h] at hlt
  have hpow : 2 ^ (8 * n) = 256 ^ n := Nat.pow_mul 2 8 n
  rw [wordAt, BitVec.toNat_ofNat, hpow, Nat.mod_eq_of_lt hlt]

/-- A word tells the bytes it was read from. -/
theorem getElem_of_wordAt_eq {n place r : Nat} {bs cs : List (BitVec 8)} (hb : place + n ≤ bs.length)
    (hc : place + n ≤ cs.length) (hr : r < n) (h : wordAt n bs place = wordAt n cs place) :
    bs[place + r]? = cs[place + r]? := by
  have hnat := congrArg BitVec.toNat h
  rw [toNat_wordAt hb, toNat_wordAt hc] at hnat
  have hlist := ofLe_inj ((length_slice hb).trans (length_slice hc).symm) hnat
  have hget := congrArg (fun xs => xs[r]?) hlist
  simpa only [List.getElem?_take, hr, if_true, List.getElem?_drop] using hget

end Bytes
