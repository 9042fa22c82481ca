import Kobzar.Library.Bits
import Kobzar.Library.Numerals
import Kobzar.Schema.TypeId

/-!
# Type IDs as text

A type ID is written as a letter for each of its flags and the number of its other bits. This tells all IDs apart
(`display_injective`).
-/

namespace Kobzar

open Bits Numerals

namespace TypeId

/-- `FLAG_MASK`: the bits that are used to identify the type. -/
def flagMask : U64 := 0b111 <<< 61

/-- `discard_mask`: the ID without its flags. -/
def discardMask (self : TypeId) : U64 := self.id &&& ~~~flagMask

/-- `Display` for `TypeId`. -/
def display (self : TypeId) : String :=
  (if self.isBuildIn then "B" else "") ++ (if self.isCustom then "C" else "") ++ (if self.isDerived then "D" else "") ++
    (if self.isOption then "O" else "") ++ toString self.discardMask.toNat

/-- The letters of an ID whose flags are these bits. -/
def letters (low high option : Bool) : List Char :=
  (if low && !high then ['B'] else []) ++ (if !low && high then ['C'] else []) ++ (if low && high then ['D'] else []) ++
    if option then ['O'] else []

/-- A word is cut down to the bits of the kind. -/
theorem and_typeKindMask_eq_iff (id kind : U64) (hkind : kind &&& typeKindMask = kind) :
    id &&& typeKindMask = kind ↔ id.getLsbD 61 = kind.getLsbD 61 ∧ id.getLsbD 62 = kind.getLsbD 62 := by
  have hmask : ∀ i < 64, typeKindMask.getLsbD i = (decide (i = 61) || decide (i = 62)) := by decide
  constructor
  · rintro rfl
    rw [BitVec.getLsbD_and, BitVec.getLsbD_and, hmask 61 (by decide), hmask 62 (by decide)]
    simp
  · rintro ⟨h61, h62⟩
    rw [← hkind]
    refine BitVec.eq_of_getLsbD_eq fun i hi => ?_
    rw [BitVec.getLsbD_and, BitVec.getLsbD_and, hmask i hi]
    by_cases hlow : i = 61
    · rw [hlow, h61]
    · by_cases hhigh : i = 62
      · rw [hhigh, h62]
      · simp [hlow, hhigh]

/-- What the flags say of the bits. -/
theorem flags_eq (self : TypeId) :
    self.isBuildIn = (self.id.getLsbD 61 && !self.id.getLsbD 62) ∧
      self.isCustom = (!self.id.getLsbD 61 && self.id.getLsbD 62) ∧
      self.isDerived = (self.id.getLsbD 61 && self.id.getLsbD 62) := by
  have hbuiltIn := and_typeKindMask_eq_iff self.id builtInBit (by decide)
  have hcustom := and_typeKindMask_eq_iff self.id customBit (by decide)
  have hderived := and_typeKindMask_eq_iff self.id derivedBit (by decide)
  have hbits : builtInBit[61] = true ∧ builtInBit[62] = false ∧ customBit[61] = false ∧ customBit[62] = true ∧
      derivedBit[61] = true ∧ derivedBit[62] = true := by
    decide
  refine ⟨?_, ?_, ?_⟩ <;> rw [Bool.eq_iff_iff]
  · simp [isBuildIn, hbuiltIn, hbits]
  · simp [isCustom, hcustom, hbits]
  · simp [isDerived, hderived, hbits]

/-- An ID is an option when its highest bit is set. -/
theorem isOption_eq (self : TypeId) : self.isOption = self.id.getLsbD 63 := by
  rw [isOption, Bool.eq_iff_iff, bne_iff_ne]
  exact and_one_shiftLeft_ne_zero_iff self.id (by decide)

/-- The text of an ID is the letters of its flags, then the digits of its other bits. -/
theorem toList_display (self : TypeId) : self.display.toList =
    letters (self.id.getLsbD 61) (self.id.getLsbD 62) (self.id.getLsbD 63) ++ Nat.toDigits 10 self.discardMask.toNat := by
  obtain ⟨hbuiltIn, hcustom, hderived⟩ := self.flags_eq
  have hletter : ∀ (b : Bool) (text : String), (if b then text else "").toList = if b then text.toList else [] := by
    intro b text
    cases b <;> rfl
  rw [display, letters, ← hbuiltIn, ← hcustom, ← hderived, ← isOption_eq]
  simp [String.toList_append, hletter, Nat.toList_repr]

/-- No letter is a digit, and the letters tell the flags. -/
theorem letters_spec : ∀ low high option : Bool, (∀ c ∈ letters low high option, c.isDigit = false) ∧
    decide ('B' ∈ letters low high option ∨ 'D' ∈ letters low high option) = low ∧
      decide ('C' ∈ letters low high option ∨ 'D' ∈ letters low high option) = high ∧
        decide ('O' ∈ letters low high option) = option := by
  intro low high option
  cases low <;> cases high <;> cases option <;> simp [letters]

/-- IDs with the same flags and the same number are the same. -/
theorem eq_of_flags {id id' : TypeId} (h61 : id.id.getLsbD 61 = id'.id.getLsbD 61)
    (h62 : id.id.getLsbD 62 = id'.id.getLsbD 62) (h63 : id.id.getLsbD 63 = id'.id.getLsbD 63)
    (hnumber : id.discardMask = id'.discardMask) : id = id' := by
  have hmask : ∀ i < 64, flagMask.getLsbD i = decide (61 ≤ i) := by decide
  refine congrArg TypeId.mk (BitVec.eq_of_getLsbD_eq fun i hi => ?_)
  have hbit := congrArg (fun word : U64 => word.getLsbD i) hnumber
  simp only [discardMask, BitVec.getLsbD_and, BitVec.getLsbD_not, hmask i hi, hi, decide_true, Bool.true_and] at hbit
  rcases Nat.lt_or_ge i 61 with hlow | hhigh
  · simpa [Nat.not_le.mpr hlow] using hbit
  · obtain rfl | rfl | rfl : i = 61 ∨ i = 62 ∨ i = 63 := by omega
    · exact h61
    · exact h62
    · exact h63

/-- The digits of a text are those of the number, and the rest are the letters. -/
theorem filter_display (low high option : Bool) (n : Nat) :
    (letters low high option ++ Nat.toDigits 10 n).filter (·.isDigit) = Nat.toDigits 10 n ∧
      (letters low high option ++ Nat.toDigits 10 n).filter (!·.isDigit) = letters low high option := by
  have hletters := (letters_spec low high option).1
  have hdigits : ∀ c ∈ Nat.toDigits 10 n, c.isDigit = true := fun c hc =>
    Nat.isDigit_of_mem_toDigits (by decide) (by decide) hc
  constructor
  · rw [List.filter_append, List.filter_eq_nil_iff.mpr (by simpa using hletters), List.filter_eq_self.mpr hdigits,
      List.nil_append]
  · rw [List.filter_append, List.filter_eq_self.mpr (by simpa using hletters),
      List.filter_eq_nil_iff.mpr (by simpa using hdigits), List.append_nil]

/-- Different IDs are displayed differently. -/
theorem display_injective : Function.Injective display := by
  intro id id' h
  have hlist := congrArg String.toList h
  rw [toList_display, toList_display] at hlist
  have hdigits := congrArg (List.filter (·.isDigit)) hlist
  have hletters := congrArg (List.filter (!·.isDigit)) hlist
  rw [(filter_display _ _ _ _).1, (filter_display _ _ _ _).1] at hdigits
  rw [(filter_display _ _ _ _).2, (filter_display _ _ _ _).2] at hletters
  obtain ⟨-, hlow, hhigh, hoption⟩ := letters_spec (id.id.getLsbD 61) (id.id.getLsbD 62) (id.id.getLsbD 63)
  rw [hletters] at hlow hhigh hoption
  obtain ⟨-, hlow', hhigh', hoption'⟩ := letters_spec (id'.id.getLsbD 61) (id'.id.getLsbD 62) (id'.id.getLsbD 63)
  exact eq_of_flags (hlow.symm.trans hlow') (hhigh.symm.trans hhigh') (hoption.symm.trans hoption')
    (BitVec.eq_of_toNat_eq (toDigits_inj (by decide) (by decide) hdigits))

/-- An optional custom type. -/
example : display ⟨0xc000000000000005⟩ = "CO5" := by decide

end TypeId

end Kobzar
