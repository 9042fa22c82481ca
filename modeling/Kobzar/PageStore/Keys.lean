import Kobzar.Machine
import Kobzar.Pidx.Page

/-!
# Keys of pages

The two kinds of keys a page store is used with. A primary index key names an item, and is bound to the page that
holds the item; an index key names its page itself. Both give the name of the file that stores the page.
-/

namespace Kobzar

/-- A key of a page store: what it is bound to, and the file that stores it (`KeyExt`). -/
class KeyExt (K : Type) (PageBoundKey : outParam Type) where
  pageBound : K → PageBoundKey
  filename : K → String

namespace Pidx

/-- Primary index key: an item of a type in a database. -/
structure Key where
  typeId : U64
  item : U64
  db : U64
  deriving DecidableEq, Repr

/-- A primary index key whose item is the first of a page. -/
structure PageBoundKey where
  key : Key
  aligned : key.item % BitVec.ofNat 64 pageSizeRecs = 0
  deriving DecidableEq

/-- The first item of a page. -/
theorem sub_mod_aligned (item : U64) :
    (item - item % BitVec.ofNat 64 pageSizeRecs) % BitVec.ofNat 64 pageSizeRecs = 0 := by
  apply BitVec.eq_of_toNat_eq
  have hle : item % BitVec.ofNat 64 pageSizeRecs ≤ item := by
    rw [BitVec.le_def, BitVec.toNat_umod]
    exact Nat.mod_le _ _
  have hzero : (0 : U64).toNat = 0 := rfl
  have hsize : (BitVec.ofNat 64 pageSizeRecs).toNat = 4096 := rfl
  rw [BitVec.toNat_umod, BitVec.toNat_sub_of_le hle, BitVec.toNat_umod, hzero, hsize]
  omega

/-- The page that holds the item. -/
def Key.pageBound (key : Key) : PageBoundKey where
  key := { key with item := key.item - key.item % BitVec.ofNat 64 pageSizeRecs }
  aligned := sub_mod_aligned key.item

/-- The place of the item within its page. -/
def Key.inPageOffset (key : Key) : Nat := (key.item % BitVec.ofNat 64 pageSizeRecs).toNat

/-- The primary index has one file for each type of a database. -/
def Key.filename (key : Key) : String := "pidx-" ++ toString key.db.toNat ++ "-" ++ toString key.typeId.toNat ++ ".idx"

instance : KeyExt Key PageBoundKey where
  pageBound := Key.pageBound
  filename := Key.filename

instance : KeyExt PageBoundKey PageBoundKey where
  pageBound := id
  filename key := key.key.filename

end Pidx

/-- Key of a page of another index. -/
structure IdxKey where
  index : U64
  db : U64
  page : U64
  deriving DecidableEq, Repr

/-- `format!("{:x}", n)`. -/
def hex (n : Nat) : String := String.ofList (Nat.toDigits 16 n)

instance : KeyExt IdxKey IdxKey where
  pageBound := id
  filename key := hex key.index.toNat ++ ".idx"

end Kobzar
