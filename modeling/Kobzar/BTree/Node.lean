import Kobzar.PageStore.Keys
import Kobzar.PageStore.Pages

/-!
# Pages of a B-tree index

A branch page and a leaf page are two readings of the same bytes of an index page; which one applies is told by a
flag in the page's address.
-/

namespace Kobzar

open Bytes

/-- The greatest number of keys in a page (`BRANCH_FANOUT`). -/
def branchFanout : Nat := 168

/-- The `u64` at a place of an index page. -/
def IdxPage.wordAt (page : IdxPage) (place : Nat) : U64 :=
  BitVec.ofNat 64 (ofLe ((List.range 8).map fun i => page.byteAt (place + i)))

namespace BTree

/-- An inline key: sixteen bytes. -/
structure Key where
  inline : List U8
  length_eq : inline.length = 16
  deriving DecidableEq

/-- The bytes of a key as numbers. -/
def Key.toNats (key : Key) : List Nat := key.inline.map BitVec.toNat

theorem Key.toNats_injective : Function.Injective Key.toNats := by
  intro a b h
  have hinline : a.inline = b.inline := List.map_injective_iff.mpr (fun _ _ => BitVec.eq_of_toNat_eq) h
  cases a
  cases b
  simpa using hinline

/-- Keys are ordered byte by byte. -/
instance : LinearOrder Key := LinearOrder.lift' Key.toNats Key.toNats_injective

/-- The key at a place of an index page. -/
def keyAt (page : IdxPage) (place : Nat) : Key :=
  { inline := (List.range 16).map fun i => page.byteAt (place + i), length_eq := by simp }

/-- The address of a child page, with a flag for leaves. -/
structure ChildFilePageOffset where
  offset : U64
  deriving DecidableEq, Repr

namespace ChildFilePageOffset

/-- The bit that is set in the address of a leaf. -/
def leafFlag : U64 := 1#64 <<< 63

/-- The child is a leaf. -/
def isLeaf (child : ChildFilePageOffset) : Bool := child.offset &&& leafFlag != 0

/-- The child's page. -/
def intoInner (child : ChildFilePageOffset) : U64 := child.offset &&& ~~~leafFlag

end ChildFilePageOffset

/-- A branch page. -/
structure Node where
  keys : List Key
  parent : U64
  keysCount : U64
  children : List ChildFilePageOffset

/-- A leaf page. -/
structure Leaf where
  keyCount : U64
  parent : U64
  keys : List Key
  pidx : List U64

/-- The branch page that an index page is. -/
def Node.fromRaw (page : IdxPage) : Node where
  keys := (List.range branchFanout).map fun i => keyAt page (16 * i)
  parent := page.wordAt 2688
  keysCount := page.wordAt 2696
  children := (List.range branchFanout).map fun i => ⟨page.wordAt (2704 + 8 * i)⟩

/-- The leaf page that an index page is. -/
def Leaf.fromRaw (page : IdxPage) : Leaf where
  keyCount := page.wordAt 0
  parent := page.wordAt 8
  keys := (List.range branchFanout).map fun i => keyAt page (64 + 16 * i)
  pidx := (List.range branchFanout).map fun i => page.wordAt (2752 + 8 * i)

/-- `&xs[0..n]`, checked. -/
def slicePrefix {α : Type} (xs : List α) (n : Nat) : Outcome (List α) :=
  if n ≤ xs.length then .ok (xs.take n) else .error .indexOutOfBounds

/-- The keys that a page counts. -/
def countedKeys (isRootLeaf : Bool) (page : IdxPage) : Outcome (List Key) :=
  if isRootLeaf then slicePrefix (Leaf.fromRaw page).keys (Leaf.fromRaw page).keyCount.toNat
  else slicePrefix (Node.fromRaw page).keys (Node.fromRaw page).keysCount.toNat

end BTree

end Kobzar
