import Kobzar.Library.CLayout
import Kobzar.PageStore.Pages

/-!
# Primary index pages as they lie in memory

A page is `repr(C)` and aligned to 64 bytes: its columns lie one behind another, each of them record by record.
There is no room between them, so that pages and bytes of a page's size are the same (`page_round_trip`).
-/

namespace Kobzar.Pidx

open Bytes CLayout

/-- The bytes of the fields kept side by side. -/
def PageGroupFields.image (fields : PageGroupFields) : List U8 := toLe 4 fields.size.toNat ++ toLe 4 fields.offset.toNat

/-- The bytes of a column of words. -/
def columnBytes {w : Nat} (column : Vector (BitVec (8 * w)) pageSizeRecs) : List U8 :=
  column.toList.flatMap fun word => toLe w word.toNat

/-- A column of words of this many bytes. -/
def columnSlot (w : Nat) : Slot where
  align := w
  width := w * pageSizeRecs

/-- The columns of a page. The first one starts where the page does, and is aligned as it is. -/
def Page.slots : List Slot :=
  [{ align := 64, width := 8 * pageSizeRecs }, columnSlot 8, columnSlot 8, columnSlot 8, columnSlot 8, columnSlot 4]

/-- The bytes of its columns. -/
def Page.parts (page : Page) : List (List U8) :=
  [page.group.toList.flatMap PageGroupFields.image, columnBytes (w := 8) page.xmin, columnBytes (w := 8) page.xmax,
    columnBytes (w := 8) page.next, columnBytes (w := 8) page.prev, columnBytes (w := 4) page.schemaVersion]

/-- The bytes of a page. -/
def Page.image (pad : Nat → U8) (page : Page) : List U8 := encode pad Page.slots page.parts

/-! ## One column -/

/-- A word is read from its bytes. -/
theorem wordAt_of_slice {w place : Nat} {bytes : List U8} {word : BitVec (8 * w)}
    (h : (bytes.drop place).take w = toLe w word.toNat) : wordAt w bytes place = word := by
  have hlt : word.toNat < 256 ^ w := by
    have hpow : 2 ^ (8 * w) = 256 ^ w := Nat.pow_mul 2 8 w
    exact hpow ▸ word.isLt
  rw [wordAt, h, ofLe_toLe_of_lt hlt, BitVec.ofNat_toNat, BitVec.setWidth_eq]

/-- The item of a record lies in a column at the record's place. -/
theorem slice_column {α : Type} {element : α → List U8} {width start : Nat} {column : Vector α pageSizeRecs}
    {bytes : List U8} (h : ∀ x, (element x).length = width)
    (hpart : (bytes.drop start).take (width * pageSizeRecs) = column.toList.flatMap element) (i : Fin pageSizeRecs) :
    (bytes.drop (start + width * i.val)).take width = element (column.get i) := by
  have hfit : width * i.val + width ≤ width * pageSizeRecs := by
    rw [← Nat.mul_succ]
    exact Nat.mul_le_mul_left width i.isLt
  have hget : column.toList[i.val]? = some (column.get i) := by
    simp [Vector.get]
  rw [← slice_part bytes hfit, hpart]
  exact slice_flatMap (fun x _ => h x) hget

/-- A column of words is read back. -/
theorem words_of_column {w start : Nat} {column : Vector (BitVec (8 * w)) pageSizeRecs} {bytes : List U8}
    (hpart : (bytes.drop start).take (w * pageSizeRecs) = columnBytes column) :
    (Vector.ofFn fun i : Fin pageSizeRecs => wordAt w bytes (start + w * i.val)) = column := by
  ext i hi : 1
  rw [Vector.getElem_ofFn]
  exact wordAt_of_slice (slice_column (fun _ => toLe_length w _) hpart ⟨i, hi⟩)

/-- The fields kept side by side are read back. -/
theorem fields_of_column {start : Nat} {column : Vector PageGroupFields pageSizeRecs} {bytes : List U8}
    (hpart : (bytes.drop start).take (8 * pageSizeRecs) = column.toList.flatMap PageGroupFields.image) :
    (Vector.ofFn fun i : Fin pageSizeRecs =>
      ({ size := wordAt 4 bytes (start + 8 * i.val),
         offset := wordAt 4 bytes (start + 8 * i.val + 4) } : PageGroupFields)) =
        column := by
  ext i hi : 1
  have hslice := slice_column (fun fields => by simp [PageGroupFields.image]) hpart ⟨i, hi⟩
  -- the slice of a record is halved
  have hsize : (bytes.drop (start + 8 * i)).take 4 = toLe 4 (column.get ⟨i, hi⟩).size.toNat := by
    rw [← Nat.add_zero (start + 8 * i), ← slice_part bytes (show 0 + 4 ≤ 8 by decide), hslice,
      PageGroupFields.image, List.drop_zero, List.take_left' (toLe_length 4 _)]
  have hoffset : (bytes.drop (start + 8 * i + 4)).take 4 = toLe 4 (column.get ⟨i, hi⟩).offset.toNat := by
    rw [← slice_part bytes (show 4 + 4 ≤ 8 by decide), hslice, PageGroupFields.image,
      List.drop_left' (toLe_length 4 _)]
    exact List.take_of_length_le (Nat.le_of_eq (toLe_length 4 _))
  rw [Vector.getElem_ofFn, wordAt_of_slice hsize, wordAt_of_slice hoffset]
  rfl

/-! ## The page -/

/-- The columns start at these places. -/
theorem Page.parts_slots (bytes : List U8) : CLayout.parts Page.slots bytes =
    [(bytes.drop (columnStart 0)).take (8 * pageSizeRecs), (bytes.drop (columnStart 1)).take (8 * pageSizeRecs),
      (bytes.drop (columnStart 2)).take (8 * pageSizeRecs), (bytes.drop (columnStart 3)).take (8 * pageSizeRecs),
      (bytes.drop (columnStart 4)).take (8 * pageSizeRecs), (bytes.drop (columnStart 5)).take (4 * pageSizeRecs)] :=
  rfl

/-- A column has as many bytes as it has words of a width. -/
theorem length_columnBytes {w : Nat} (column : Vector (BitVec (8 * w)) pageSizeRecs) :
    (columnBytes column).length = w * pageSizeRecs := by
  rw [columnBytes, length_flatMap_of_width _ fun _ _ => toLe_length w _, Vector.length_toList]

/-- A page is read back from its bytes, which are as many as its size. -/
theorem Page.ofBytes_image (pad : Nat → U8) (page : Page) :
    (page.image pad).length = Page.size ∧ Page.ofBytes (page.image pad) = page := by
  have hgroup : (page.group.toList.flatMap PageGroupFields.image).length = 8 * pageSizeRecs := by
    rw [length_flatMap_of_width _ fun fields _ => show fields.image.length = 8 by simp [PageGroupFields.image],
      Vector.length_toList]
  have hfits : Fits Page.slots page.parts :=
    .cons ⟨by decide, hgroup⟩ (.cons ⟨by decide, length_columnBytes (w := 8) _⟩
      (.cons ⟨by decide, length_columnBytes (w := 8) _⟩
      (.cons ⟨by decide, length_columnBytes (w := 8) _⟩ (.cons ⟨by decide, length_columnBytes (w := 8) _⟩
        (.cons ⟨by decide, length_columnBytes (w := 4) _⟩ .nil)))))
  have hparts := (Page.parts_slots (page.image pad)).symm.trans (parts_encode pad hfits)
  simp only [Page.parts, List.cons.injEq, and_true] at hparts
  obtain ⟨hgroup, hxmin, hxmax, hnext, hprev, hversion⟩ := hparts
  refine ⟨length_encode pad hfits, ?_⟩
  have hfields := fields_of_column hgroup
  simp only [columnStart, Nat.mul_zero, Nat.zero_add] at hfields
  rw [Page.ofBytes, hfields, words_of_column (w := 8) hxmin, words_of_column (w := 8) hxmax,
    words_of_column (w := 8) hnext, words_of_column (w := 8) hprev, words_of_column (w := 4) hversion]

/-- Every primary index page, with whatever padding, takes as many bytes as its size and is read back from them;
and as many bytes are those of the page that is read of them: no byte of a page is padding. -/
theorem page_round_trip (pad : Nat → U8) :
    (∀ page : Page, (page.image pad).length = Page.size ∧ Page.ofBytes (page.image pad) = page) ∧
      ∀ bytes : List U8, bytes.length = Page.size → (Page.ofBytes bytes).image pad = bytes := by
  refine ⟨Page.ofBytes_image pad, fun bytes hlen => ?_⟩
  obtain ⟨hlen', hread⟩ := Page.ofBytes_image pad (Page.ofBytes bytes)
  exact Page.ofBytes_inj hlen' hlen hread

end Kobzar.Pidx
