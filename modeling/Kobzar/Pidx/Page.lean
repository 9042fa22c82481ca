import Kobzar.Machine

/-!
# Primary index pages

A page holds the metadata of `PAGE_SIZE_RECS` records column by column, so that a column can be cut into vectors.
-/

namespace Kobzar.Pidx

/-- Page size in records (`PAGE_SIZE_RECS`). -/
def pageSizeRecs : Nat := 4096

/-- Size in bytes of the bitmap that tells which records of a page are visible (`PAGE_SIZE_BITMAP`). -/
def pageSizeBitmap : Nat := pageSizeRecs / 8

/-- The fields kept side by side for cache locality. -/
structure PageGroupFields where
  size : U32
  offset : U32
  deriving DecidableEq, Repr

/-- Page of primary index records. -/
structure Page where
  group : Vector PageGroupFields pageSizeRecs
  /-- Transaction that created the record. -/
  xmin : Vector U64 pageSizeRecs
  /-- Transaction that deleted the record, the greatest word while it is not deleted. -/
  xmax : Vector U64 pageSizeRecs
  next : Vector U64 pageSizeRecs
  prev : Vector U64 pageSizeRecs
  schemaVersion : Vector U32 pageSizeRecs

/-- `u64::MAX`, which marks an invalid entry of a column. -/
def invalid : U64 := BitVec.allOnes 64

/-- `u32::MAX`, which marks an invalid entry of a column. -/
def invalid32 : U32 := BitVec.allOnes 32

/-- A new empty page: every entry of every column is invalid. -/
def Page.new : Page where
  group := Vector.replicate _ { size := invalid32, offset := invalid32 }
  xmin := Vector.replicate _ invalid
  xmax := Vector.replicate _ invalid
  next := Vector.replicate _ invalid
  prev := Vector.replicate _ invalid
  schemaVersion := Vector.replicate _ invalid32

/-- Transaction `x` sees record `i`: it was created before `x` and not deleted before `x`. -/
def Page.Shows (page : Page) (x : U64) (i : Fin pageSizeRecs) : Prop := page.xmin[i] < x ∧ x ≤ page.xmax[i]

instance (page : Page) (x : U64) (i : Fin pageSizeRecs) : Decidable (page.Shows x i) :=
  inferInstanceAs (Decidable (_ ∧ _))

/-- The page with the two columns of transactions exchanged. -/
def Page.exchanged (page : Page) : Page := { page with xmin := page.xmax, xmax := page.xmin }

end Kobzar.Pidx
