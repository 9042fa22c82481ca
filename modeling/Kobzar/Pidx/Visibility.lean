import Kobzar.Library.Loop
import Kobzar.Library.Bits
import Kobzar.Pidx.Page

/-!
# The visibility map of a page

`VisibilityMapCalc::with_simd` has one branch for each vector width and a scalar fallback; which one runs is the machine's
choice. Of the vector library the model takes what the branches use: a column is cut into groups of `u64Lanes` values in
order, comparisons are lane by lane and unsigned, and a lane of a mask is all ones or all zeros.
-/

namespace Kobzar.Pidx

open Loop Bits

/-! ## The vector operations -/

/-- A vector width of the machine. Every width cuts a column evenly. -/
structure Simd where
  u64Lanes : Nat
  dvd : u64Lanes ∣ pageSizeRecs

/-- Group `i` of a column cut into groups of `lanes` values. -/
def lanesAt (lanes : Nat) (col : List U64) (i : Nat) : List U64 := (col.drop (i * lanes)).take lanes

/-- `S::as_simd_u64s`: the groups of a column, and the values left over. -/
def Simd.asSimdU64s (simd : Simd) (col : List U64) : List (List U64) × List U64 :=
  ((List.range (col.length / simd.u64Lanes)).map (lanesAt simd.u64Lanes col),
    col.drop (col.length / simd.u64Lanes * simd.u64Lanes))

/-- `splat_u64s`: the same value in every lane. -/
def Simd.splatU64s (simd : Simd) (x : U64) : List U64 := List.replicate simd.u64Lanes x

/-- A lane of a mask. -/
def maskLane (c : Bool) : U64 := if c then BitVec.allOnes 64 else 0

/-- `greater_than_or_equal_u64s`. -/
def greaterThanOrEqualU64s (a b : List U64) : List U64 := List.zipWith (fun x y => maskLane (decide (y ≤ x))) a b

/-- `less_than_u64s`. -/
def lessThanU64s (a b : List U64) : List U64 := List.zipWith (fun x y => maskLane (decide (x < y))) a b

/-- `and_m64s`. -/
def andM64s (a b : List U64) : List U64 := List.zipWith (· &&& ·) a b

/-- `bytemuck::cast` of a mask to an array of `n` words: the sizes must agree. -/
def cast (n : Nat) (mask : List U64) : Outcome (Vector U64 n) :=
  if h : mask.length = n then .ok ⟨mask.toArray, by simpa using h⟩ else .error .sizeMismatch

/-! ## The branches -/

/-- The local function `and`: the lanes with `max ≥ x` and `min < x`. -/
def and (max min xSplat : List U64) : List U64 :=
  let maskMin := greaterThanOrEqualU64s max xSplat
  let maskMax := lessThanU64s min xSplat
  andM64s maskMin maskMax

/-- One byte of the map from eight lanes of a mask, bit `k` from lane `k`. -/
def packByte (e₀ e₁ e₂ e₃ e₄ e₅ e₆ e₇ : U64) : U8 :=
  (asU8 e₀ &&& (1#8 <<< 0)) ||| (asU8 e₁ &&& (1#8 <<< 1)) ||| (asU8 e₂ &&& (1#8 <<< 2)) |||
    (asU8 e₃ &&& (1#8 <<< 3)) ||| (asU8 e₄ &&& (1#8 <<< 4)) ||| (asU8 e₅ &&& (1#8 <<< 5)) |||
    (asU8 e₆ &&& (1#8 <<< 6)) ||| (asU8 e₇ &&& (1#8 <<< 7))

/-- A pass of the loop over vectors of 8 lanes: one vector makes one byte. -/
def pass8 (xmax xmin : List (List U64)) (xSplat : List U64) (i : Nat) (map : List U8) : Outcome (List U8) := do
  let elements ← cast 8 (and (← index xmax i) (← index xmin i) xSplat)
  store map i (packByte elements[0] elements[1] elements[2] elements[3] elements[4] elements[5] elements[6] elements[7])

/-- A pass of the loop over vectors of 4 lanes: the vectors `i` and `i + 1` make byte `i / 2`. -/
def pass4 (xmax xmin : List (List U64)) (xSplat : List U64) (i : Nat) (map : List U8) : Outcome (List U8) := do
  let a := and (← index xmax i) (← index xmin i) xSplat
  let b := and (← index xmax (i + 1)) (← index xmin (i + 1)) xSplat
  let a ← cast 4 a
  let b ← cast 4 b
  store map (i / 2) (packByte a[0] a[1] a[2] a[3] b[0] b[1] b[2] b[3])

/-- A pass of the loop over vectors of 2 lanes: the vectors `i` to `i + 3` make byte `i / 4`. -/
def pass2 (xmax xmin : List (List U64)) (xSplat : List U64) (i : Nat) (map : List U8) : Outcome (List U8) := do
  let a := and (← index xmax i) (← index xmin i) xSplat
  let b := and (← index xmax (i + 1)) (← index xmin (i + 1)) xSplat
  let c := and (← index xmax (i + 2)) (← index xmin (i + 2)) xSplat
  let d := and (← index xmax (i + 3)) (← index xmin (i + 3)) xSplat
  let a ← cast 2 a
  let b ← cast 2 b
  let c ← cast 2 c
  let d ← cast 2 d
  store map (i / 4) (packByte a[0] a[1] b[0] b[1] (c)[0] (c)[1] d[0] d[1])

/-- A pass of the scalar loop: record `i` sets its bit of byte `i / 8`. -/
def passScalar (page : Page) (x : U64) (i : Nat) (map : List U8) : Outcome (List U8) := do
  let max ← index page.xmax.toList i
  let min ← index page.xmin.toList i
  let maskMin := decide (x ≤ max)
  let maskMax := decide (min < x)
  let byte ← index map (i / 8)
  store map (i / 8) (byte ||| if maskMin && maskMax then 1#8 <<< (i % 8) else 0)

/-- The map before the loop. -/
def emptyMap : List U8 := List.replicate pageSizeBitmap 0

/-- The scalar branch. -/
def fallback (page : Page) (x : U64) : Outcome (List U8) := forRange pageSizeRecs emptyMap (passScalar page x)

/-- `VisibilityMapCalc::with_simd`. The columns are bound as the source binds them: `xmax` from the column `xmin`
and `xmin` from the column `xmax`. The scalar branch binds them anew. -/
def withSimd (simd : Simd) (page : Page) (x : U64) : Outcome (List U8) := do
  let (xmax, tail1) := simd.asSimdU64s page.xmin.toList
  let (xmin, tail2) := simd.asSimdU64s page.xmax.toList
  assertEq 0 tail1.length
  assertEq 0 tail2.length
  let xSplat := simd.splatU64s x
  if simd.u64Lanes = 8 then
    forRange pageSizeBitmap emptyMap (pass8 xmax xmin xSplat)
  else if simd.u64Lanes = 4 then
    forRange (pageSizeBitmap * 2) emptyMap (pass4 xmax xmin xSplat)
  else if simd.u64Lanes = 2 then
    forRange (pageSizeBitmap * 4) emptyMap (pass2 xmax xmin xSplat)
  else
    fallback page x

/-- `Page::visibility_map`: the vector width is the one the machine `arch` dispatches to. -/
def Page.visibilityMap (page : Page) (arch : Simd) (x : U64) : Outcome (List U8) := withSimd arch page x

end Kobzar.Pidx
