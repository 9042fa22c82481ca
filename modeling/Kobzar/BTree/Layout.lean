import Kobzar.BTree.Node
import Kobzar.Library.CLayout

/-!
# Nodes and leaves as they lie in a page

`Node` and `Leaf` are `repr(C)`, and their keys are aligned to 64 bytes. Each fills an index page, padding
included. What is read of a page tells it up to the padding, and every node and every leaf is read back from its
page (`pages_round_trip`).
-/

namespace Kobzar

open Bytes CLayout

/-! ## Bytes of a page -/

namespace IdxPage

/-- As many bytes as a page has are read back from it. -/
theorem map_byteAt {bytes : List U8} (hlen : bytes.length = indexPageSize) {place n : Nat}
    (h : place + n ≤ indexPageSize) :
    (List.range n).map (fun i => (ofBytes bytes).byteAt (place + i)) = (bytes.drop place).take n := by
  apply List.ext_getElem
  · simp only [List.length_map, List.length_range, List.length_take, List.length_drop]
    omega
  · intro i hi hi'
    simp only [List.length_map, List.length_range] at hi
    have hlt : place + i < indexPageSize := by omega
    have hget : place + i < bytes.length := by omega
    simp [byteAt, ofBytes, hlt, hget]

/-- The bytes of a page. -/
def toBytes (page : IdxPage) : List U8 := List.ofFn page.bytes

/-- A page is told from its bytes. -/
theorem ofBytes_toBytes (page : IdxPage) : ofBytes page.toBytes = page := by
  rcases page with ⟨bytes⟩
  simp only [ofBytes, toBytes, mk.injEq]
  funext place
  simp

/-- The byte at a place is that of the bytes. -/
theorem byteAt_eq (page : IdxPage) : page.byteAt = fun place => page.toBytes.getD place 0 := by
  funext place
  by_cases h : place < indexPageSize <;> simp [byteAt, toBytes, h]

@[simp] theorem length_toBytes (page : IdxPage) : page.toBytes.length = indexPageSize := List.length_ofFn

end IdxPage

namespace BTree

/-- The bytes of a word. -/
def wordBytes (word : U64) : List U8 := toLe 8 word.toNat

/-- The word of bytes. -/
def wordOf (bytes : List U8) : U64 := BitVec.ofNat 64 (ofLe bytes)

theorem length_wordBytes (word : U64) : (wordBytes word).length = 8 := toLe_length 8 _

/-- The key of bytes. -/
def keyOf (bytes : List U8) : Key where
  inline := (List.range 16).map fun i => bytes.getD i 0
  length_eq := by simp

/-- A word has these bytes when it is the word of them. -/
theorem wordBytes_wordOf {bytes : List U8} (h : bytes.length = 8) : wordBytes (wordOf bytes) = bytes := by
  have hlt := ofLe_lt bytes
  rw [h] at hlt
  have hnat : (wordOf bytes).toNat = ofLe bytes := by
    rw [wordOf, BitVec.toNat_ofNat]
    exact Nat.mod_eq_of_lt hlt
  rw [wordBytes, hnat]
  exact ofLe_inj ((toLe_length 8 _).trans h.symm) (ofLe_toLe_of_lt hlt)

/-- A word is the word of its bytes. -/
theorem wordOf_wordBytes (word : U64) : wordOf (wordBytes word) = word := by
  rw [wordOf, wordBytes, ofLe_toLe_of_lt (by have := word.isLt; omega), BitVec.ofNat_toNat, BitVec.setWidth_eq]

/-- A key has these bytes when it is the key of them. -/
theorem inline_keyOf {bytes : List U8} (h : bytes.length = 16) : (keyOf bytes).inline = bytes := by
  apply List.ext_getElem
  · simp [keyOf, h]
  · intro i hi hi'
    simp [keyOf, hi']

/-- A key is the key of its bytes. -/
theorem keyOf_inline (key : Key) : keyOf key.inline = key := by
  have hinline := inline_keyOf key.length_eq
  rcases key with ⟨inline, hlen⟩
  simp only [keyOf, Key.mk.injEq] at hinline ⊢
  exact hinline

variable {bytes : List U8} (hlen : bytes.length = indexPageSize) {place : Nat}

include hlen

/-- A word of a page is read from its bytes. -/
theorem wordAt_ofBytes (h : place + 8 ≤ indexPageSize) :
    (IdxPage.ofBytes bytes).wordAt place = wordOf ((bytes.drop place).take 8) := by
  rw [IdxPage.wordAt, IdxPage.map_byteAt hlen h, wordOf]

/-- A key of a page is read from its bytes. -/
theorem keyAt_ofBytes (h : place + 16 ≤ indexPageSize) :
    keyAt (IdxPage.ofBytes bytes) place = keyOf ((bytes.drop place).take 16) := by
  have hslice : ((bytes.drop place).take 16).length = 16 := length_slice (by omega)
  have hinline := inline_keyOf hslice
  rw [← IdxPage.map_byteAt hlen h] at hinline
  simp only [keyAt, keyOf, Key.mk.injEq] at hinline ⊢
  rw [← IdxPage.map_byteAt hlen h, hinline]

/-- The bytes of the keys of a page. -/
theorem flatMap_keys (h : place + 16 * branchFanout ≤ indexPageSize) :
    (readArray keyOf 16 branchFanout place bytes).flatMap Key.inline = (bytes.drop place).take (16 * branchFanout) :=
  flatMap_readArray (fun _ hkey => inline_keyOf hkey) (by omega)

/-- The bytes of a word of a page. -/
theorem wordBytes_slice (h : place + 8 ≤ indexPageSize) :
    wordBytes (wordOf ((bytes.drop place).take 8)) = (bytes.drop place).take 8 :=
  wordBytes_wordOf (length_slice (by omega))

omit hlen

/-! ## Nodes -/

/-- The place of `Keys`. -/
def keysSlot : Slot where
  align := 64
  width := 16 * branchFanout

/-- The place of an array of words, one for each key. -/
def wordsSlot : Slot where
  align := 8
  width := 8 * branchFanout

namespace Node

/-- The bytes of the address of a child. -/
def childBytes (child : ChildFilePageOffset) : List U8 := wordBytes child.offset

/-- The address of a child of bytes. -/
def childOf (bytes : List U8) : ChildFilePageOffset where
  offset := wordOf bytes

/-- The fields of a node. -/
def slots : List Slot := [keysSlot, natural 8, natural 8, wordsSlot]

/-- The bytes of its fields. -/
def parts (node : Node) : List (List U8) :=
  [node.keys.flatMap Key.inline, wordBytes node.parent, wordBytes node.keysCount, node.children.flatMap childBytes]

/-- The bytes of a node, with this padding. -/
def image (pad : Nat → U8) (node : Node) : List U8 := encode pad slots node.parts

/-- What is read of a page is read from its bytes. -/
theorem fromRaw_ofBytes (hlen : bytes.length = indexPageSize) : fromRaw (IdxPage.ofBytes bytes) =
    { keys := readArray keyOf 16 branchFanout 0 bytes
      parent := wordOf ((bytes.drop 2688).take 8)
      keysCount := wordOf ((bytes.drop 2696).take 8)
      children := readArray childOf 8 branchFanout 2704 bytes } := by
  simp only [fromRaw, readArray, mk.injEq]
  refine ⟨List.map_congr_left fun i hi => ?_, wordAt_ofBytes hlen (by decide), wordAt_ofBytes hlen (by decide),
    List.map_congr_left fun i hi => ?_⟩
  · have hlt : i < 168 := List.mem_range.mp hi
    rw [keyAt_ofBytes hlen (by simp only [indexPageSize]; omega), Nat.zero_add]
  · have hlt : i < 168 := List.mem_range.mp hi
    rw [wordAt_ofBytes hlen (by simp only [indexPageSize]; omega), childOf]

/-- The fields start at these places. -/
theorem parts_slots (bytes : List U8) : CLayout.parts slots bytes =
    [(bytes.drop 0).take (16 * branchFanout), (bytes.drop 2688).take 8, (bytes.drop 2696).take 8,
      (bytes.drop 2704).take (8 * branchFanout)] :=
  rfl

/-- A node with the keys and children that its arrays have is read back from its bytes, which fill a page. -/
theorem fromRaw_image (pad : Nat → U8) {node : Node} (hkeys : node.keys.length = branchFanout)
    (hchildren : node.children.length = branchFanout) :
    (node.image pad).length = indexPageSize ∧ fromRaw (IdxPage.ofBytes (node.image pad)) = node := by
  have hinline : ∀ key ∈ node.keys, key.inline.length = 16 := fun key _ => key.length_eq
  have hwords : ∀ child ∈ node.children, (childBytes child).length = 8 := fun child _ => length_wordBytes _
  have hchild : ∀ child ∈ node.children, childOf (childBytes child) = child := fun child _ => by
    rw [childOf, childBytes, wordOf_wordBytes]
  have hfits : Fits slots node.parts := by
    have hkeysLen : (node.keys.flatMap Key.inline).length = 16 * branchFanout := by
      rw [length_flatMap_of_width _ hinline, hkeys]
    have hchildrenLen : (node.children.flatMap childBytes).length = 8 * branchFanout := by
      rw [length_flatMap_of_width _ hwords, hchildren]
    exact .cons ⟨by decide, hkeysLen⟩
      (.cons ⟨by decide, length_wordBytes _⟩ (.cons ⟨by decide, length_wordBytes _⟩
      (.cons ⟨by decide, hchildrenLen⟩ .nil)))
  have hlen : (node.image pad).length = indexPageSize := length_encode pad hfits
  have hparts := (parts_slots (node.image pad)).symm.trans (parts_encode pad hfits)
  simp only [parts, List.cons.injEq, and_true] at hparts
  obtain ⟨hkeysPart, hparent, hcount, hchildrenPart⟩ := hparts
  refine ⟨hlen, ?_⟩
  rw [fromRaw_ofBytes hlen, hparent, hcount, wordOf_wordBytes, wordOf_wordBytes,
    readArray_flatMap hinline (fun key _ => keyOf_inline key) hkeys hkeysPart,
    readArray_flatMap hwords hchild hchildren hchildrenPart]

/-- A page has the bytes of the node that is read of it, with the padding that it has. -/
theorem image_fromRaw (page : IdxPage) : (fromRaw page).image page.byteAt = page.toBytes := by
  have hread := fromRaw_ofBytes page.length_toBytes
  rw [page.ofBytes_toBytes] at hread
  have hchild : ∀ bytes, bytes.length = 8 → childBytes (childOf bytes) = bytes := fun _ h => wordBytes_wordOf h
  have hchildren : (readArray childOf 8 branchFanout 2704 page.toBytes).flatMap childBytes =
      (page.toBytes.drop 2704).take (8 * branchFanout) :=
    flatMap_readArray hchild (by rw [page.length_toBytes]; decide)
  have hparts : (fromRaw page).parts = CLayout.parts slots page.toBytes := by
    rw [hread, parts_slots, parts, flatMap_keys page.length_toBytes (by decide),
      wordBytes_slice page.length_toBytes (by decide), wordBytes_slice page.length_toBytes (by decide), hchildren]
  rw [image, hparts, page.byteAt_eq]
  exact encode_parts (by decide) page.length_toBytes

end Node

/-! ## Leaves -/

namespace Leaf

/-- The fields of a leaf. -/
def slots : List Slot := [natural 8, natural 8, keysSlot, wordsSlot]

/-- The bytes of its fields. -/
def parts (leaf : Leaf) : List (List U8) :=
  [wordBytes leaf.keyCount, wordBytes leaf.parent, leaf.keys.flatMap Key.inline, leaf.pidx.flatMap wordBytes]

/-- The bytes of a leaf, with this padding. -/
def image (pad : Nat → U8) (leaf : Leaf) : List U8 := encode pad slots leaf.parts

/-- What is read of a page is read from its bytes. -/
theorem fromRaw_ofBytes (hlen : bytes.length = indexPageSize) : fromRaw (IdxPage.ofBytes bytes) =
    { keyCount := wordOf ((bytes.drop 0).take 8)
      parent := wordOf ((bytes.drop 8).take 8)
      keys := readArray keyOf 16 branchFanout 64 bytes
      pidx := readArray wordOf 8 branchFanout 2752 bytes } := by
  simp only [fromRaw, readArray, mk.injEq]
  refine ⟨wordAt_ofBytes hlen (by decide), wordAt_ofBytes hlen (by decide), List.map_congr_left fun i hi => ?_,
    List.map_congr_left fun i hi => ?_⟩
  · have hlt : i < 168 := List.mem_range.mp hi
    rw [keyAt_ofBytes hlen (by simp only [indexPageSize]; omega)]
  · have hlt : i < 168 := List.mem_range.mp hi
    rw [wordAt_ofBytes hlen (by simp only [indexPageSize]; omega)]

/-- The fields start at these places: the keys behind padding. -/
theorem parts_slots (bytes : List U8) : CLayout.parts slots bytes =
    [(bytes.drop 0).take 8, (bytes.drop 8).take 8, (bytes.drop 64).take (16 * branchFanout),
      (bytes.drop 2752).take (8 * branchFanout)] :=
  rfl

/-- A leaf with the keys and items that its arrays have is read back from its bytes, which fill a page. -/
theorem fromRaw_image (pad : Nat → U8) {leaf : Leaf} (hkeys : leaf.keys.length = branchFanout)
    (hpidx : leaf.pidx.length = branchFanout) :
    (leaf.image pad).length = indexPageSize ∧ fromRaw (IdxPage.ofBytes (leaf.image pad)) = leaf := by
  have hinline : ∀ key ∈ leaf.keys, key.inline.length = 16 := fun key _ => key.length_eq
  have hwords : ∀ item ∈ leaf.pidx, (wordBytes item).length = 8 := fun item _ => length_wordBytes item
  have hfits : Fits slots leaf.parts := by
    have hkeysLen : (leaf.keys.flatMap Key.inline).length = 16 * branchFanout := by
      rw [length_flatMap_of_width _ hinline, hkeys]
    have hpidxLen : (leaf.pidx.flatMap wordBytes).length = 8 * branchFanout := by
      rw [length_flatMap_of_width _ hwords, hpidx]
    exact .cons ⟨by decide, length_wordBytes _⟩
      (.cons ⟨by decide, length_wordBytes _⟩ (.cons ⟨by decide, hkeysLen⟩
      (.cons ⟨by decide, hpidxLen⟩ .nil)))
  have hlen : (leaf.image pad).length = indexPageSize := length_encode pad hfits
  have hparts := (parts_slots (leaf.image pad)).symm.trans (parts_encode pad hfits)
  simp only [parts, List.cons.injEq, and_true] at hparts
  obtain ⟨hcount, hparent, hkeysPart, hpidxPart⟩ := hparts
  refine ⟨hlen, ?_⟩
  rw [fromRaw_ofBytes hlen, hcount, hparent, wordOf_wordBytes, wordOf_wordBytes,
    readArray_flatMap hinline (fun key _ => keyOf_inline key) hkeys hkeysPart,
    readArray_flatMap hwords (fun item _ => wordOf_wordBytes item) hpidx hpidxPart]

/-- A page has the bytes of the leaf that is read of it, with the padding that it has. -/
theorem image_fromRaw (page : IdxPage) : (fromRaw page).image page.byteAt = page.toBytes := by
  have hread := fromRaw_ofBytes page.length_toBytes
  rw [page.ofBytes_toBytes] at hread
  have hpidx : (readArray wordOf 8 branchFanout 2752 page.toBytes).flatMap wordBytes =
      (page.toBytes.drop 2752).take (8 * branchFanout) :=
    flatMap_readArray (fun _ h => wordBytes_wordOf h) (by rw [page.length_toBytes]; decide)
  have hparts : (fromRaw page).parts = CLayout.parts slots page.toBytes := by
    rw [hread, parts_slots, parts, flatMap_keys page.length_toBytes (by decide),
      wordBytes_slice page.length_toBytes (by decide), wordBytes_slice page.length_toBytes (by decide), hpidx]
  rw [image, hparts, page.byteAt_eq]
  exact encode_parts (by decide) page.length_toBytes

end Leaf

/-- Every node and every leaf, with whatever padding, fills a page and is read back from it; and every page has the
bytes of the node, and those of the leaf, that is read of it, with the padding that it has. -/
theorem pages_round_trip :
    (∀ (pad : Nat → U8) (node : Node), node.keys.length = branchFanout → node.children.length = branchFanout →
      (node.image pad).length = indexPageSize ∧ Node.fromRaw (IdxPage.ofBytes (node.image pad)) = node) ∧
    (∀ (pad : Nat → U8) (leaf : Leaf), leaf.keys.length = branchFanout → leaf.pidx.length = branchFanout →
      (leaf.image pad).length = indexPageSize ∧ Leaf.fromRaw (IdxPage.ofBytes (leaf.image pad)) = leaf) ∧
    ∀ page : IdxPage, (Node.fromRaw page).image page.byteAt = page.toBytes ∧
      (Leaf.fromRaw page).image page.byteAt = page.toBytes :=
  ⟨fun pad _ => Node.fromRaw_image pad, fun pad _ => Leaf.fromRaw_image pad,
    fun page => ⟨Node.image_fromRaw page, Leaf.image_fromRaw page⟩⟩

end BTree

end Kobzar
