import Kobzar.Library.Words
import Kobzar.Machine

/-!
# Layouts of records

A layout counts the bytes and the bits that the fields of a record need. For a record of several variants the
layouts of the variants are joined: layouts are ordered by both counts, the join is the least one above two, and so
the layout of all variants is the least that fits each of them, in whatever order they and their fields come
(`leastLayout_of_variants`).
-/

namespace Kobzar

open Words

/-- `DataSize`: data size in bytes. -/
structure DataSize where
  bytes : U64
  deriving DecidableEq, Repr

/-- `Ord::max` on `u64`. -/
def maxU64 (a b : U64) : U64 := if b < a then a else b

/-- The greater word is the greater number. -/
theorem toNat_maxU64 (a b : U64) : (maxU64 a b).toNat = max a.toNat b.toNat := by
  unfold maxU64
  split
  · rename_i hlt
    exact (max_eq_left (Nat.le_of_lt hlt)).symm
  · rename_i hle
    exact (max_eq_right (Nat.le_of_not_lt hle)).symm

namespace DataSize

/-- `Add` for `DataSize`. -/
instance : Add DataSize where
  add self other := ⟨self.bytes + other.bytes⟩

/-- `max`, by the derived `Ord`. -/
def max (self other : DataSize) : DataSize := ⟨maxU64 self.bytes other.bytes⟩

end DataSize

/-- `FieldLayout`: what one field needs. -/
structure FieldLayout where
  dataSize : DataSize
  bits : U8
  deriving DecidableEq, Repr

/-- `LayoutCalc`: what the fields of a record need together. -/
structure LayoutCalc where
  totalDataSize : DataSize
  totalBits : U64
  deriving DecidableEq, Repr

namespace LayoutCalc

/-- `LayoutCalc::new`. -/
def new : LayoutCalc where
  totalDataSize := ⟨0⟩
  totalBits := 0

/-- `required_buf_capacity`. -/
def requiredBufCapacity (self : LayoutCalc) : Nat :=
  let totalDataSize := self.totalDataSize.bytes
  let totalBits := self.totalBits
  let bitmapSize := (totalBits + 7) / 8
  let totalSize := totalDataSize + bitmapSize
  totalSize.toNat

/-- `union`. -/
def union (self other : LayoutCalc) : LayoutCalc where
  totalDataSize := self.totalDataSize.max other.totalDataSize
  totalBits := maxU64 self.totalBits other.totalBits

/-- `add_assign`, which `add` is made of. -/
def addAssign (self : LayoutCalc) (layout : FieldLayout) : LayoutCalc where
  totalDataSize := self.totalDataSize + layout.dataSize
  totalBits := self.totalBits + layout.bits.setWidth 64

/-- `Add<FieldLayout>` for `LayoutCalc`. -/
instance : HAdd LayoutCalc FieldLayout LayoutCalc where
  hAdd := addAssign

/-- `BitOr` for `LayoutCalc`. -/
instance : OrOp LayoutCalc where
  or := union

end LayoutCalc

/-- The layout of one variant: its fields are added to the empty layout. -/
def layoutOf (fields : List FieldLayout) : LayoutCalc := fields.foldl (· + ·) .new

/-- The layout of a record of several variants: the layouts of the variants are joined. -/
def layoutOfVariants (variants : List (List FieldLayout)) : LayoutCalc := (variants.map layoutOf).foldl (· ||| ·) .new

/-! ## The order of layouts -/

namespace LayoutCalc

/-- The bytes of a layout, as a number. -/
def dataCount (layout : LayoutCalc) : Nat := layout.totalDataSize.bytes.toNat

/-- The bits of a layout, as a number. -/
def bitCount (layout : LayoutCalc) : Nat := layout.totalBits.toNat

/-- Both counts of a layout. -/
def counts (layout : LayoutCalc) : Nat × Nat := (layout.dataCount, layout.bitCount)

theorem counts_injective : Function.Injective counts := by
  rintro ⟨⟨bytes⟩, bits⟩ ⟨⟨bytes'⟩, bits'⟩ h
  obtain ⟨hbytes, hbits⟩ := Prod.mk.inj h
  obtain rfl : bytes = bytes' := BitVec.eq_of_toNat_eq hbytes
  obtain rfl : bits = bits' := BitVec.eq_of_toNat_eq hbits
  rfl

/-- A layout is below another when both of its counts are. -/
instance : PartialOrder LayoutCalc := PartialOrder.lift counts counts_injective

theorem le_iff {a b : LayoutCalc} : a ≤ b ↔ a.dataCount ≤ b.dataCount ∧ a.bitCount ≤ b.bitCount := Iff.rfl

theorem dataCount_or (a b : LayoutCalc) : (a ||| b).dataCount = max a.dataCount b.dataCount := toNat_maxU64 _ _

theorem bitCount_or (a b : LayoutCalc) : (a ||| b).bitCount = max a.bitCount b.bitCount := toNat_maxU64 _ _

/-- Joining two layouts gives the least one above both. -/
instance : SemilatticeSup LayoutCalc where
  sup a b := a ||| b
  le_sup_left a b := by
    rw [le_iff, dataCount_or, bitCount_or]
    exact ⟨le_max_left _ _, le_max_left _ _⟩
  le_sup_right a b := by
    rw [le_iff, dataCount_or, bitCount_or]
    exact ⟨le_max_right _ _, le_max_right _ _⟩
  sup_le a b c hac hbc := by
    rw [le_iff, dataCount_or, bitCount_or]
    exact ⟨max_le hac.1 hbc.1, max_le hac.2 hbc.2⟩

/-- The empty layout is below every other. -/
instance : OrderBot LayoutCalc where
  bot := new
  bot_le _ := ⟨Nat.zero_le _, Nat.zero_le _⟩

end LayoutCalc

/-- The layout of all variants is the supremum of theirs. -/
theorem layoutOfVariants_eq_sup (variants : List (List FieldLayout)) :
    layoutOfVariants variants = (Multiset.ofList (variants.map layoutOf)).sup := by
  rw [Multiset.sup_coe]
  exact List.foldl_eq_foldr (f := fun a b : LayoutCalc => a ⊔ b) (a := ⊥) (l := variants.map layoutOf)

/-! ## The counts -/

/-- The bytes that the fields of a variant need. -/
def dataSum (fields : List FieldLayout) : Nat := (fields.map fun field => field.dataSize.bytes.toNat).sum

/-- The bits that the fields of a variant need. -/
def bitSum (fields : List FieldLayout) : Nat := (fields.map fun field => field.bits.toNat).sum

/-- The sums of each variant are words. -/
structure TotalsFit (variants : List (List FieldLayout)) : Prop where
  data : ∀ fields ∈ variants, dataSum fields < 2 ^ 64
  bits : ∀ fields ∈ variants, bitSum fields < 2 ^ 64

/-- The bytes of a variant are those of its fields. -/
theorem dataCount_layoutOf {fields : List FieldLayout} (h : dataSum fields < 2 ^ 64) :
    (layoutOf fields).dataCount = dataSum fields := by
  have hsplit : (layoutOf fields).totalDataSize.bytes = fields.foldl (fun sum field => sum + field.dataSize.bytes) 0#64 :=
    (List.foldl_hom (fun layout : LayoutCalc => layout.totalDataSize.bytes) fun _ _ => rfl).symm
  rw [LayoutCalc.dataCount, hsplit, toNat_foldl_add, BitVec.toNat_ofNat, Nat.zero_mod, Nat.zero_add]
  exact Nat.mod_eq_of_lt h

/-- The bits of a variant are those of its fields. -/
theorem bitCount_layoutOf {fields : List FieldLayout} (h : bitSum fields < 2 ^ 64) :
    (layoutOf fields).bitCount = bitSum fields := by
  have hsplit : (layoutOf fields).totalBits = fields.foldl (fun sum field => sum + field.bits.setWidth 64) 0#64 :=
    (List.foldl_hom (fun layout : LayoutCalc => layout.totalBits) fun _ _ => rfl).symm
  have hwidth : ∀ field : FieldLayout, (field.bits.setWidth 64).toNat = field.bits.toNat :=
    fun field => BitVec.toNat_setWidth_of_le (by decide)
  rw [LayoutCalc.bitCount, hsplit, toNat_foldl_add, BitVec.toNat_ofNat, Nat.zero_mod, Nat.zero_add]
  simp only [hwidth]
  exact Nat.mod_eq_of_lt h

/-- The bytes of the layout of all variants are the most that a variant needs. -/
theorem dataCount_layoutOfVariants {variants : List (List FieldLayout)} (h : TotalsFit variants) :
    (layoutOfVariants variants).dataCount = (variants.map dataSum).foldl max 0 := by
  have hjoin : (layoutOfVariants variants).dataCount =
      ((variants.map layoutOf).map LayoutCalc.dataCount).foldl max 0 := by
    rw [List.foldl_map]
    exact (List.foldl_hom LayoutCalc.dataCount fun a b => (LayoutCalc.dataCount_or a b).symm).symm
  rw [hjoin, List.map_map]
  congr 1
  exact List.map_congr_left fun fields hfields => dataCount_layoutOf (h.data fields hfields)

/-- The bits of the layout of all variants are the most that a variant needs. -/
theorem bitCount_layoutOfVariants {variants : List (List FieldLayout)} (h : TotalsFit variants) :
    (layoutOfVariants variants).bitCount = (variants.map bitSum).foldl max 0 := by
  have hjoin : (layoutOfVariants variants).bitCount = ((variants.map layoutOf).map LayoutCalc.bitCount).foldl max 0 := by
    rw [List.foldl_map]
    exact (List.foldl_hom LayoutCalc.bitCount fun a b => (LayoutCalc.bitCount_or a b).symm).symm
  rw [hjoin, List.map_map]
  congr 1
  exact List.map_congr_left fun fields hfields => bitCount_layoutOf (h.bits fields hfields)

/-! ## The order of fields and of variants -/

/-- The same variants in another order, each with the same fields in another order. -/
def Rearranged : List (List FieldLayout) → List (List FieldLayout) → Prop :=
  Relation.Comp (List.Forall₂ List.Perm) List.Perm

/-- The layout of a variant does not depend on the order of its fields. -/
theorem layoutOf_perm {fields fields' : List FieldLayout} (h : fields.Perm fields') :
    layoutOf fields = layoutOf fields' := by
  refine h.foldl_eq' (fun field _ field' _ layout => ?_) LayoutCalc.new
  show (layout.addAssign field).addAssign field' = (layout.addAssign field').addAssign field
  unfold LayoutCalc.addAssign
  congr 1
  · exact congrArg DataSize.mk (add_right_comm _ _ _)
  · exact add_right_comm _ _ _

/-- The layouts of variants do not depend on the order of their fields. -/
theorem map_layoutOf_perm {variants variants' : List (List FieldLayout)}
    (h : List.Forall₂ List.Perm variants variants') : variants.map layoutOf = variants'.map layoutOf := by
  induction h with
  | nil => rfl
  | cons hperm _ ih => rw [List.map_cons, List.map_cons, layoutOf_perm hperm, ih]

/-- The layout of all variants does not depend on any order. -/
theorem layoutOfVariants_rearranged {variants variants' : List (List FieldLayout)} (h : Rearranged variants variants') :
    layoutOfVariants variants = layoutOfVariants variants' := by
  obtain ⟨between, hfields, hvariants⟩ := h
  rw [layoutOfVariants_eq_sup, layoutOfVariants_eq_sup, map_layoutOf_perm hfields,
    Multiset.coe_eq_coe.mpr (hvariants.map layoutOf)]

/-! ## The buffer of a record -/

namespace LayoutCalc

/-- The bytes that a record takes: those of its data, and those that its bits fill. -/
def bufferSize (layout : LayoutCalc) : Nat := layout.dataCount + layout.bitCount ⌈/⌉ 8

/-- The total size of the buffer is a word, and so is the number of bits that is rounded up. -/
structure BufferFits (layout : LayoutCalc) : Prop where
  rounding : layout.bitCount + 7 < 2 ^ 64
  size : layout.bufferSize < 2 ^ 64

/-- The buffer capacity, as the words of the code give it. -/
theorem requiredBufCapacity_eq (layout : LayoutCalc) :
    layout.requiredBufCapacity = (layout.dataCount + (layout.bitCount + 7) % 2 ^ 64 / 8) % 2 ^ 64 := by
  unfold requiredBufCapacity
  simp only [BitVec.toNat_add, BitVec.toNat_udiv]
  rfl

/-- The buffer capacity is what the record takes exactly when the buffer fits. -/
theorem requiredBufCapacity_eq_iff (layout : LayoutCalc) :
    layout.requiredBufCapacity = layout.bufferSize ↔ layout.BufferFits := by
  have hdata : layout.dataCount < 2 ^ 64 := layout.totalDataSize.bytes.isLt
  have hbits : layout.bitCount < 2 ^ 64 := layout.totalBits.isLt
  have hceil : layout.bufferSize = layout.dataCount + (layout.bitCount + 7) / 8 := rfl
  rw [requiredBufCapacity_eq]
  constructor
  · intro h
    refine ⟨?_, h ▸ Nat.mod_lt _ (by decide)⟩
    by_contra hwraps
    -- a wrapped number of bits rounds to no byte at all
    have hnone : (layout.bitCount + 7) % 2 ^ 64 / 8 = 0 := by omega
    rw [hnone, Nat.add_zero, Nat.mod_eq_of_lt hdata] at h
    omega
  · rintro ⟨hrounding, hsize⟩
    rw [Nat.mod_eq_of_lt hrounding, ← hceil, Nat.mod_eq_of_lt hsize]

/-- A layout that fits makes every layout below it fit, in no more bytes. -/
theorem BufferFits.of_le {a b : LayoutCalc} (h : b.BufferFits) (hle : a ≤ b) :
    a.BufferFits ∧ a.bufferSize ≤ b.bufferSize := by
  obtain ⟨hdata, hbits⟩ := le_iff.mp hle
  have hsize : a.bufferSize ≤ b.bufferSize := Nat.add_le_add hdata (Nat.div_le_div_right (Nat.add_le_add_right hbits 7))
  exact ⟨⟨Nat.lt_of_le_of_lt (Nat.add_le_add_right hbits 7) h.rounding, Nat.lt_of_le_of_lt hsize h.size⟩, hsize⟩

/-- The buffer of a layout that fits holds the record of every layout below it. -/
theorem BufferFits.capacity_le {a b : LayoutCalc} (h : b.BufferFits) (hle : a ≤ b) :
    a.requiredBufCapacity ≤ b.requiredBufCapacity := by
  obtain ⟨ha, hsize⟩ := h.of_le hle
  rwa [(requiredBufCapacity_eq_iff a).mpr ha, (requiredBufCapacity_eq_iff b).mpr h]

end LayoutCalc

/-- The layout of all variants is the least one above those of the variants. -/
theorem isLUB_layoutOfVariants (variants : List (List FieldLayout)) :
    IsLUB {layout | ∃ fields ∈ variants, layoutOf fields = layout} (layoutOfVariants variants) := by
  rw [layoutOfVariants_eq_sup]
  constructor
  · rintro layout ⟨fields, hfields, rfl⟩
    exact Multiset.le_sup (Multiset.mem_coe.mpr (List.mem_map_of_mem hfields))
  · intro bound hbound
    refine Multiset.sup_le.mpr fun layout hlayout => hbound ?_
    exact List.mem_map.mp (Multiset.mem_coe.mp hlayout)

/-- The layout of all variants whose sums are words: its counts are the most that a variant needs, it does not
depend on the order of fields or of variants, and it is the least layout above those of the variants. Its buffer is
exactly as large as the record when that size is a word, and no other time; then it holds the record of every
variant. -/
theorem leastLayout_of_variants {variants : List (List FieldLayout)} (hfit : TotalsFit variants) :
    ((layoutOfVariants variants).dataCount = (variants.map dataSum).foldl max 0 ∧
      (layoutOfVariants variants).bitCount = (variants.map bitSum).foldl max 0) ∧
    (∀ variants', Rearranged variants variants' → layoutOfVariants variants = layoutOfVariants variants') ∧
    IsLUB {layout | ∃ fields ∈ variants, layoutOf fields = layout} (layoutOfVariants variants) ∧
    ((layoutOfVariants variants).requiredBufCapacity =
      (layoutOfVariants variants).dataCount + (layoutOfVariants variants).bitCount ⌈/⌉ 8 ↔
        (layoutOfVariants variants).BufferFits) ∧
    ((layoutOfVariants variants).BufferFits → ∀ fields ∈ variants,
      (layoutOf fields).requiredBufCapacity ≤ (layoutOfVariants variants).requiredBufCapacity) := by
  have hlub := isLUB_layoutOfVariants variants
  refine ⟨⟨dataCount_layoutOfVariants hfit, bitCount_layoutOfVariants hfit⟩,
    fun _ => layoutOfVariants_rearranged, hlub, LayoutCalc.requiredBufCapacity_eq_iff _, fun hfits fields hfields => ?_⟩
  exact hfits.capacity_le (hlub.1 ⟨fields, hfields, rfl⟩)

/-- A record of as many bytes as a word counts, or of eight bits. -/
def wideVariants : List (List FieldLayout) := [[⟨⟨2 ^ 64 - 1⟩, 0⟩], [⟨⟨0⟩, 8⟩]]

/-- The sums and the buffers of both variants are words, and the capacity of their common buffer goes around to
zero: it is not the size of the record, and it holds neither variant. -/
theorem leastLayout_of_variants_wide : TotalsFit wideVariants ∧
    (∀ fields ∈ wideVariants, (layoutOf fields).BufferFits) ∧
    (layoutOfVariants wideVariants).requiredBufCapacity = 0 ∧
    (layoutOfVariants wideVariants).dataCount + (layoutOfVariants wideVariants).bitCount ⌈/⌉ 8 = 2 ^ 64 ∧
    ∀ fields ∈ wideVariants, 0 < (layoutOf fields).requiredBufCapacity := by
  refine ⟨⟨by decide +kernel, by decide +kernel⟩, fun fields hfields => ?_, by decide +kernel, by decide +kernel,
    by decide +kernel⟩
  rcases List.mem_pair.mp hfields with rfl | rfl
  · exact ⟨by decide +kernel, by decide +kernel⟩
  · exact ⟨by decide +kernel, by decide +kernel⟩

/-- A record of twelve bytes and three bits, or of sixteen bytes. -/
def twoVariants : List (List FieldLayout) := [[⟨⟨8⟩, 1⟩, ⟨⟨4⟩, 2⟩], [⟨⟨16⟩, 0⟩]]

/-- The buffer of both variants takes sixteen bytes and one for the bits. -/
theorem leastLayout_of_variants_two : (layoutOfVariants twoVariants).requiredBufCapacity = 17 ∧
    ∀ fields ∈ twoVariants, (layoutOf fields).requiredBufCapacity ≤
      (layoutOfVariants twoVariants).requiredBufCapacity := by
  have hfit : TotalsFit twoVariants := ⟨by decide, by decide⟩
  have hbuffer : (layoutOfVariants twoVariants).BufferFits := ⟨by decide, by decide⟩
  obtain ⟨-, -, -, hcapacity, hholds⟩ := leastLayout_of_variants hfit
  exact ⟨hcapacity.mpr hbuffer, hholds hbuffer⟩

end Kobzar
