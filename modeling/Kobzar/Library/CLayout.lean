import Mathlib
import Kobzar.Library.Bytes

/-!
# Records as C lays them out

A record has a part for each of its fields, of an alignment and a width in bytes. In memory each part starts at the
next multiple of its alignment behind the one before, and the record is filled up to a multiple of the greatest
alignment. The bytes between and behind the parts are padding, and may be any. The parts are told from the bytes of
a record, whatever the padding (`parts_encode`); so are numbers, each aligned by its width, its least significant
byte first (`decode_encode`), and the elements of an array, which lie one behind another (`slice_flatMap`).
-/

namespace CLayout

open Bytes

/-- The place of a field in bytes: what it is aligned to, and how wide it is. -/
structure Slot where
  align : Nat
  width : Nat

/-- The next multiple of an alignment. -/
def roundUp (place align : Nat) : Nat := (place + align - 1) / align * align

/-- Where a record with these fields from a place on comes to. -/
def reach : Nat → List Slot → Nat
  | place, [] => place
  | place, slot :: slots => reach (roundUp place slot.align + slot.width) slots

/-- The size of a record in bytes. -/
def size (slots : List Slot) : Nat := roundUp (reach 0 slots) ((slots.map Slot.align).foldr max 1)

/-- Where the fields start, those from a place on. -/
def offsetsFrom : Nat → List Slot → List Nat
  | _, [] => []
  | place, slot :: slots => roundUp place slot.align :: offsetsFrom (roundUp place slot.align + slot.width) slots

/-- The parts of a record. -/
def parts (slots : List Slot) (bytes : List (BitVec 8)) : List (List (BitVec 8)) :=
  List.zipWith (fun slot offset => (bytes.drop offset).take slot.width) slots (offsetsFrom 0 slots)

/-- The padding from a place up to another. -/
def padding (pad : Nat → BitVec 8) (place place' : Nat) : List (BitVec 8) :=
  (List.range' place (place' - place)).map pad

/-- The bytes from a place of a record up to its last part. -/
def encodeFrom (pad : Nat → BitVec 8) : Nat → List Slot → List (List (BitVec 8)) → List (BitVec 8)
  | place, slot :: slots, value :: values =>
    padding pad place (roundUp place slot.align) ++
      (value ++ encodeFrom pad (roundUp place slot.align + slot.width) slots values)
  | _, _, _ => []

/-- The bytes of a record of these parts. -/
def encode (pad : Nat → BitVec 8) (slots : List Slot) (values : List (List (BitVec 8))) : List (BitVec 8) :=
  encodeFrom pad 0 slots values ++ padding pad (reach 0 slots) (size slots)

/-- The parts are as wide as the fields. -/
def Fits (slots : List Slot) (values : List (List (BitVec 8))) : Prop :=
  List.Forall₂ (fun slot value => 0 < slot.align ∧ value.length = slot.width) slots values

@[simp] theorem length_padding (pad : Nat → BitVec 8) (place place' : Nat) :
    (padding pad place place').length = place' - place := by
  simp [padding]

/-- The next multiple is not before the place. -/
theorem le_roundUp (place : Nat) {align : Nat} (h : 0 < align) : place ≤ roundUp place align := by
  have hdiv := Nat.div_add_mod (place + align - 1) align
  have hmod := Nat.mod_lt (place + align - 1) h
  rw [roundUp, Nat.mul_comm]
  omega

/-- The bytes from a place on are as many as the record comes further. -/
theorem length_encodeFrom (pad : Nat → BitVec 8) {slots : List Slot} {values : List (List (BitVec 8))}
    (h : Fits slots values)
    (place : Nat) : place + (encodeFrom pad place slots values).length = reach place slots := by
  induction h generalizing place with
  | nil => rfl
  | @cons slot value slots values hfit _ ih =>
    have hround := le_roundUp place hfit.1
    have hrest := ih (roundUp place slot.align + slot.width)
    simp only [encodeFrom, reach, List.length_append, length_padding, hfit.2]
    omega

/-- A record has as many bytes as its size. -/
theorem length_encode (pad : Nat → BitVec 8) {slots : List Slot} {values : List (List (BitVec 8))}
    (h : Fits slots values) : (encode pad slots values).length = size slots := by
  have hpos : 0 < (slots.map Slot.align).foldr max 1 := by
    induction h with
    | nil => exact Nat.one_pos
    | cons hfit _ _ => exact Nat.lt_of_lt_of_le hfit.1 (Nat.le_max_left _ _)
  have hround := le_roundUp (reach 0 slots) hpos
  have hlen := length_encodeFrom pad h 0
  rw [encode, List.length_append, length_padding]
  unfold size at hround ⊢
  omega

/-- Parts written behind a front, from the place where it ends on, are found at their offsets. -/
theorem zipWith_encodeFrom (pad : Nat → BitVec 8) {slots : List Slot} {values : List (List (BitVec 8))}
    (h : Fits slots values) (front back : List (BitVec 8)) :
    List.zipWith (fun slot offset =>
      ((front ++ (encodeFrom pad front.length slots values ++ back)).drop offset).take slot.width)
      slots (offsetsFrom front.length slots) = values := by
  induction h generalizing front with
  | nil => rfl
  | @cons slot value slots values hfit _ ih =>
    have hround := le_roundUp front.length hfit.1
    have hat : (front ++ padding pad front.length (roundUp front.length slot.align)).length =
        roundUp front.length slot.align := by
      rw [List.length_append, length_padding]
      omega
    have hbehind : (front ++ padding pad front.length (roundUp front.length slot.align) ++ value).length =
        roundUp front.length slot.align + slot.width := by
      rw [List.length_append, hat, hfit.2]
    have hrest := ih (front ++ padding pad front.length (roundUp front.length slot.align) ++ value)
    rw [hbehind] at hrest
    simp only [encodeFrom, offsetsFrom, List.zipWith_cons_cons, List.cons.injEq]
    constructor
    · rw [List.append_assoc, ← List.append_assoc front, List.drop_left' hat, List.append_assoc, ← hfit.2,
        List.take_left]
    · simpa only [List.append_assoc] using hrest

/-- The parts of a record are found in its bytes, whatever the padding. -/
theorem parts_encode (pad : Nat → BitVec 8) {slots : List Slot} {values : List (List (BitVec 8))}
    (h : Fits slots values) : parts slots (encode pad slots values) = values :=
  zipWith_encodeFrom pad h [] _

/-- The padding that bytes have between two places is the bytes there. -/
theorem padding_getD (bytes : List (BitVec 8)) {place place' : Nat} (h : place' ≤ bytes.length) :
    padding (fun i => bytes.getD i 0) place place' = (bytes.drop place).take (place' - place) := by
  apply List.ext_getElem
  · simp only [length_padding, List.length_take, List.length_drop]
    omega
  · intro i hi hi'
    simp only [length_padding] at hi
    have hlt : place + i < bytes.length := by omega
    simp [padding, hlt]

/-- Bytes from one place to another, and from there on. -/
theorem take_drop_append (bytes : List (BitVec 8)) {place mid stop : Nat} (h : place ≤ mid) (h' : mid ≤ stop) :
    (bytes.drop place).take (mid - place) ++ (bytes.drop mid).take (stop - mid) =
      (bytes.drop place).take (stop - place) := by
  have hsplit : stop - place = (mid - place) + (stop - mid) := by omega
  rw [hsplit, List.take_add, List.drop_drop, Nat.add_sub_of_le h]

/-- A record comes no less far than where it starts. -/
theorem le_reach {slots : List Slot} (h : ∀ slot ∈ slots, 0 < slot.align) (place : Nat) :
    place ≤ reach place slots := by
  induction slots generalizing place with
  | nil => exact Nat.le_refl place
  | cons slot slots ih =>
    obtain ⟨hslot, hslots⟩ := List.forall_mem_cons.mp h
    exact Nat.le_trans (Nat.le_trans (le_roundUp place hslot) (Nat.le_add_right _ _)) (ih hslots _)

/-- The parts that bytes have from a place on, with the padding they have, are these bytes. -/
theorem encodeFrom_parts {bytes : List (BitVec 8)} {slots : List Slot} (h : ∀ slot ∈ slots, 0 < slot.align)
    (place : Nat) (hlen : reach place slots ≤ bytes.length) :
    encodeFrom (fun i => bytes.getD i 0) place slots
        (List.zipWith (fun slot offset => (bytes.drop offset).take slot.width) slots (offsetsFrom place slots)) =
      (bytes.drop place).take (reach place slots - place) := by
  induction slots generalizing place with
  | nil => simp [encodeFrom, reach]
  | cons slot slots ih =>
    obtain ⟨hslot, hslots⟩ := List.forall_mem_cons.mp h
    have hround := le_roundUp place hslot
    have hreach := le_reach hslots (roundUp place slot.align + slot.width)
    rw [reach] at hlen
    simp only [offsetsFrom, List.zipWith_cons_cons, encodeFrom, reach]
    have hwidth : slot.width = roundUp place slot.align + slot.width - roundUp place slot.align := by omega
    rw [ih hslots _ hlen, padding_getD bytes (by omega)]
    nth_rewrite 1 [hwidth]
    rw [take_drop_append bytes (by omega) (by omega), take_drop_append bytes hround (by omega)]

/-- As many bytes as a record has are a record of their parts, with the padding they have. -/
theorem encode_parts {bytes : List (BitVec 8)} {slots : List Slot} (h : ∀ slot ∈ slots, 0 < slot.align)
    (hlen : bytes.length = size slots) : encode (fun i => bytes.getD i 0) slots (parts slots bytes) = bytes := by
  have hpos : 0 < (slots.map Slot.align).foldr max 1 := by
    cases slots with
    | nil => exact Nat.one_pos
    | cons slot slots => exact Nat.lt_of_lt_of_le (h slot List.mem_cons_self) (Nat.le_max_left _ _)
  have hround : reach 0 slots ≤ size slots := le_roundUp _ hpos
  rw [encode, parts, encodeFrom_parts h 0 (hlen ▸ hround), padding_getD bytes (Nat.le_of_eq hlen.symm),
    take_drop_append bytes (Nat.zero_le _) hround, List.drop_zero, Nat.sub_zero, ← hlen, List.take_length]

/-! ## Numbers -/

/-- The place of a number: it is aligned to its width. -/
def natural (width : Nat) : Slot where
  align := width
  width := width

/-- The size of a record of numbers of these widths. -/
def numbersSize (widths : List Nat) : Nat := size (widths.map natural)

/-- The numbers of a record. -/
def decode (widths : List Nat) (bytes : List (BitVec 8)) : List Nat := (parts (widths.map natural) bytes).map ofLe

/-- The bytes of a record of these numbers. -/
def encodeNumbers (pad : Nat → BitVec 8) (widths numbers : List Nat) : List (BitVec 8) :=
  encode pad (widths.map natural) (List.zipWith toLe widths numbers)

/-- The numbers are of the widths. -/
def NumbersFit (widths numbers : List Nat) : Prop :=
  List.Forall₂ (fun width number => 0 < width ∧ number < 256 ^ width) widths numbers

/-- Numbers of the widths have parts that are as wide. -/
theorem NumbersFit.fits {widths numbers : List Nat} (h : NumbersFit widths numbers) :
    Fits (widths.map natural) (List.zipWith toLe widths numbers) := by
  induction h with
  | nil => exact .nil
  | cons hfit _ ih => exact .cons ⟨hfit.1, toLe_length _ _⟩ ih

/-- A record of numbers has as many bytes as its size. -/
theorem length_encodeNumbers (pad : Nat → BitVec 8) {widths numbers : List Nat} (h : NumbersFit widths numbers) :
    (encodeNumbers pad widths numbers).length = numbersSize widths :=
  length_encode pad h.fits

/-- The numbers of a record are read back from its bytes, whatever the padding. -/
theorem decode_encode (pad : Nat → BitVec 8) {widths numbers : List Nat} (h : NumbersFit widths numbers) :
    decode widths (encodeNumbers pad widths numbers) = numbers := by
  rw [decode, encodeNumbers, parts_encode pad h.fits]
  induction h with
  | nil => rfl
  | cons hfit _ ih => rw [List.zipWith_cons_cons, List.map_cons, ofLe_toLe_of_lt hfit.2, ih]

/-! ## Arrays -/

variable {α : Type*} {element : α → List (BitVec 8)} {width : Nat}

/-- An array has as many bytes as its elements. -/
theorem length_flatMap_of_width (xs : List α) (h : ∀ x ∈ xs, (element x).length = width) :
    (xs.flatMap element).length = width * xs.length := by
  induction xs with
  | nil => rfl
  | cons x xs ih =>
    obtain ⟨hx, hxs⟩ := List.forall_mem_cons.mp h
    rw [List.flatMap_cons, List.length_append, hx, ih hxs, List.length_cons, Nat.mul_succ, Nat.add_comm]

/-- An element of an array is found at its place. -/
theorem slice_flatMap {xs : List α} (h : ∀ x ∈ xs, (element x).length = width) {i : Nat} {x : α}
    (hx : xs[i]? = some x) : ((xs.flatMap element).drop (width * i)).take width = element x := by
  induction xs generalizing i with
  | nil => cases hx
  | cons y ys ih =>
    obtain ⟨hy, hys⟩ := List.forall_mem_cons.mp h
    cases i with
    | zero =>
      cases hx
      rw [Nat.mul_zero, List.drop_zero, List.flatMap_cons, ← hy, List.take_left]
    | succ i =>
      have hskip : (y :: ys).flatMap element = element y ++ ys.flatMap element := List.flatMap_cons
      rw [Nat.mul_succ, Nat.add_comm, ← List.drop_drop, hskip, List.drop_left' hy]
      exact ih hys hx

/-- A slice of a part of bytes. -/
theorem slice_part (bytes : List (BitVec 8)) {start i width n : Nat} (h : i + width ≤ n) :
    ((((bytes.drop start).take n).drop i).take width) = (bytes.drop (start + i)).take width := by
  rw [List.drop_take, List.drop_drop, List.take_take, Nat.min_eq_left (by omega)]

/-- The elements of an array that starts at a place. -/
def readArray (read : List (BitVec 8) → α) (width n start : Nat) (bytes : List (BitVec 8)) : List α :=
  (List.range n).map fun i => read ((bytes.drop (start + width * i)).take width)

/-- An array is read back. -/
theorem readArray_flatMap {read : List (BitVec 8) → α} {xs : List α} (h : ∀ x ∈ xs, (element x).length = width)
    (hread : ∀ x ∈ xs, read (element x) = x) {bytes : List (BitVec 8)} {start n : Nat} (hn : xs.length = n)
    (hpart : (bytes.drop start).take (width * n) = xs.flatMap element) : readArray read width n start bytes = xs := by
  subst hn
  apply List.ext_getElem
  · simp [readArray]
  · intro i hi hi'
    have hfit : width * i + width ≤ width * xs.length := by
      rw [← Nat.mul_succ]
      exact Nat.mul_le_mul_left width hi'
    have hslice := slice_flatMap h (List.getElem?_eq_getElem hi')
    rw [← hpart, slice_part bytes hfit] at hslice
    simp only [readArray, List.getElem_map, List.getElem_range, hslice]
    exact hread _ (List.getElem_mem hi')

/-- The bytes of an array that was read are those it was read from. -/
theorem flatMap_readArray {read : List (BitVec 8) → α}
    (hread : ∀ bytes, bytes.length = width → element (read bytes) = bytes)
    {bytes : List (BitVec 8)} {start n : Nat} (hfit : start + width * n ≤ bytes.length) :
    (readArray read width n start bytes).flatMap element = (bytes.drop start).take (width * n) := by
  induction n with
  | zero => simp [readArray]
  | succ n ih =>
    rw [Nat.mul_succ] at hfit
    have hslice : ((bytes.drop (start + width * n)).take width).length = width := length_slice (by omega)
    have hrest := ih (by omega)
    simp only [readArray] at hrest ⊢
    rw [List.range_succ, List.map_append, List.flatMap_append, hrest, List.map_singleton, List.flatMap_singleton,
      hread _ hslice, Nat.mul_succ, List.take_add, List.drop_drop]

end CLayout
