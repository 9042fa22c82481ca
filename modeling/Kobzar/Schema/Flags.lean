import Kobzar.Machine
import Kobzar.Library.Bits

/-!
# Flags of a field

The low three bits of a field's flags hold a length, the bits above are flags. The operators on flags are meant to
leave the length of the left operand as it is. Setting flags does, but clearing them (`f &= !g`) clears the length
as well: `!` sets the low bits for `&=` to keep, and `&=` takes them off its right operand again (`updates_iff`).
-/

namespace Kobzar

/-- `FieldFlags`: flags for field metadata. -/
structure FieldFlags where
  bits : U32
  deriving DecidableEq, Repr

namespace FieldFlags

/-- `SUBBYTE_MASK`: the bits of the sub-byte length. -/
def subbyteMask : U32 := 0b111 <<< 0

/-- `HASH`: whether a hash is included. -/
def hash : FieldFlags := ⟨1 <<< 3⟩

/-- `BLOB`: whether the field is a BLOB. -/
def blob : FieldFlags := ⟨1 <<< 4⟩

/-- `without_subbyte`. -/
def withoutSubbyte (self : FieldFlags) : FieldFlags := ⟨self.bits &&& ~~~subbyteMask⟩

/-- `self |= rhs`. -/
def bitorAssign (self rhs : FieldFlags) : FieldFlags := ⟨self.bits ||| rhs.withoutSubbyte.bits⟩

/-- `self &= rhs`. -/
def bitandAssign (self rhs : FieldFlags) : FieldFlags := ⟨self.bits &&& rhs.withoutSubbyte.bits⟩

/-- `!self`. -/
def not (self : FieldFlags) : FieldFlags := ⟨~~~self.withoutSubbyte.bits⟩

/-! ## Bit by bit -/

/-- The mask has the low three bits. -/
theorem getLsbD_subbyteMask (n : Nat) : subbyteMask.getLsbD n = decide (n < 3) :=
  Bits.getLsbD_lowMask (by decide : 3 < 32) n

variable {f g : FieldFlags} {n : Nat}

/-- Taking the length off leaves the flags. -/
theorem getLsbD_withoutSubbyte (f : FieldFlags) (hn : n < 32) :
    f.withoutSubbyte.bits.getLsbD n = (f.bits.getLsbD n && decide (3 ≤ n)) := by
  rw [withoutSubbyte, BitVec.getLsbD_and, BitVec.getLsbD_not, getLsbD_subbyteMask, decide_eq_true hn, Bool.true_and]
  congr 1
  rw [← decide_not, decide_eq_decide]
  exact Nat.not_lt

/-- What setting flags makes of a bit. -/
theorem getLsbD_bitorAssign (f g : FieldFlags) (hn : n < 32) :
    (f.bitorAssign g).bits.getLsbD n = (f.bits.getLsbD n || (g.bits.getLsbD n && decide (3 ≤ n))) := by
  rw [bitorAssign, BitVec.getLsbD_or, getLsbD_withoutSubbyte g hn]

/-- What clearing flags makes of a bit: of the length nothing is left. -/
theorem getLsbD_bitandAssign_not (f g : FieldFlags) (hn : n < 32) :
    (f.bitandAssign g.not).bits.getLsbD n = (f.bits.getLsbD n && !g.bits.getLsbD n && decide (3 ≤ n)) := by
  have hnot : g.not.bits.getLsbD n = !(g.bits.getLsbD n && decide (3 ≤ n)) := by
    rw [not, BitVec.getLsbD_not, getLsbD_withoutSubbyte g hn, decide_eq_true hn, Bool.true_and]
  rw [bitandAssign, BitVec.getLsbD_and, getLsbD_withoutSubbyte g.not hn, hnot]
  cases f.bits.getLsbD n <;> cases g.bits.getLsbD n <;> cases decide (3 ≤ n) <;> rfl

/-! ## Setting and clearing -/

/-- The result of giving the flags of `g` a value in `f`: the length of `f` is as it was, each flag of `g` has the
value, and every other flag is as it was. -/
structure Updates (f g : FieldFlags) (value : Bool) (result : FieldFlags) : Prop where
  length : ∀ n < 3, result.bits.getLsbD n = f.bits.getLsbD n
  given : ∀ n, 3 ≤ n → n < 32 → g.bits.getLsbD n = true → result.bits.getLsbD n = value
  others : ∀ n, 3 ≤ n → n < 32 → g.bits.getLsbD n = false → result.bits.getLsbD n = f.bits.getLsbD n

/-- Setting flags sets them, and changes nothing else. -/
theorem updates_bitorAssign (f g : FieldFlags) : f.Updates g true (f.bitorAssign g) where
  length n hn := by
    rw [getLsbD_bitorAssign f g (by omega), decide_eq_false (by omega), Bool.and_false, Bool.or_false]
  given n hle hn hg := by
    rw [getLsbD_bitorAssign f g hn, hg, decide_eq_true hle, Bool.and_true, Bool.or_true]
  others n _ hn hg := by
    rw [getLsbD_bitorAssign f g hn, hg, Bool.false_and, Bool.or_false]

/-- A length is zero when its three bits are. -/
theorem and_subbyteMask_eq_zero_iff : f.bits &&& subbyteMask = 0 ↔ ∀ n < 3, f.bits.getLsbD n = false := by
  constructor
  · intro h n hn
    have hbit := congrArg (fun bits : U32 => bits.getLsbD n) h
    simpa [BitVec.getLsbD_and, getLsbD_subbyteMask, hn] using hbit
  · intro h
    apply BitVec.eq_of_getLsbD_eq
    intro n hn
    rw [BitVec.getLsbD_and, getLsbD_subbyteMask]
    by_cases hlow : n < 3
    · simp [h n hlow]
    · simp [hlow]

/-- Clearing flags clears them and no other flag, and leaves the length as it was exactly when there is none. -/
theorem updates_bitandAssign_not_iff (f g : FieldFlags) :
    f.Updates g false (f.bitandAssign g.not) ↔ f.bits &&& subbyteMask = 0 := by
  rw [and_subbyteMask_eq_zero_iff]
  constructor
  · intro h n hn
    rw [← h.length n hn, getLsbD_bitandAssign_not f g (by omega), decide_eq_false (by omega), Bool.and_false]
  · intro h
    refine ⟨fun n hn => ?_, fun n hle hn hg => ?_, fun n hle hn hg => ?_⟩
    · rw [getLsbD_bitandAssign_not f g (by omega), decide_eq_false (by omega), Bool.and_false, h n hn]
    · rw [getLsbD_bitandAssign_not f g hn, hg, Bool.not_true, Bool.and_false, Bool.false_and]
    · rw [getLsbD_bitandAssign_not f g hn, hg, decide_eq_true hle, Bool.not_false, Bool.and_true, Bool.and_true]

/-- When flags are set and cleared with nothing else changed: for all flags `f` and `g`, exactly when `f` has no sub-byte
length. -/
theorem updates_iff (f g : FieldFlags) :
    f.Updates g true (f.bitorAssign g) ∧ f.Updates g false (f.bitandAssign g.not) ↔ f.bits &&& subbyteMask = 0 := by
  rw [updates_bitandAssign_not_iff]
  exact and_iff_right (updates_bitorAssign f g)

/-- Clearing the BLOB flag of a field with a length of 5 bits, which does not have the flag, clears the length. -/
theorem clearing_blob_clears_length : (⟨5⟩ : FieldFlags).bitandAssign blob.not = ⟨0⟩ ∧
    ¬(⟨5⟩ : FieldFlags).Updates blob false ((⟨5⟩ : FieldFlags).bitandAssign blob.not) := by
  refine ⟨rfl, fun h => ?_⟩
  exact absurd (h.length 0 (by decide)) (by decide)

end FieldFlags

end Kobzar
