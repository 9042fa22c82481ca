import Kobzar.Machine

/-!
# Access history and eviction score

A cached page carries the generations of its last accesses in a ring, from which the store computes how likely the page is
to be evicted.
-/

namespace Kobzar

/-- Number of generations that a page's access history keeps (`LAST_ACCESSED_GENS`). -/
abbrev lastAccessedGens : Nat := 4

/-- A ring of the last accessed generations, and the place of its first one. -/
structure RingInline where
  lastAccessed : Vector U64 lastAccessedGens
  start : Fin lastAccessedGens
  deriving DecidableEq, Repr

namespace RingInline

/-- A ring filled with one generation. -/
def new (x : U64) : RingInline := { lastAccessed := Vector.replicate _ x, start := 0 }

/-- Record a generation. -/
def push (ring : RingInline) (generation : U64) : RingInline where
  lastAccessed := ring.lastAccessed.set ring.start generation
  start := ring.start + 1

/-- The entry `n` places from the first. -/
def nth (ring : RingInline) (n : Nat) : U64 := ring.lastAccessed[Fin.ofNat lastAccessedGens (ring.start.val + n)]

/-- The entry the ring calls current. -/
def current (ring : RingInline) : U64 := ring.nth 0

/-- `arr.rotate_left(k)`. -/
def rotateLeft (arr : Vector U64 lastAccessedGens) (k : Nat) : Vector U64 lastAccessedGens :=
  Vector.ofFn fun i => arr[Fin.ofNat lastAccessedGens (i.val + k)]

/-- Rotate the array so that the ring starts at its beginning. -/
def rotateToNormalize (ring : RingInline) : RingInline where
  lastAccessed := rotateLeft ring.lastAccessed (lastAccessedGens - ring.start.val)
  start := 0

end RingInline

/-- Metadata of a cached page: its place in the cache, whether it needs to be written back, and its access history. -/
structure CacheMeta where
  idx : Nat
  dirty : Bool
  lastAccessed : RingInline
  deriving DecidableEq, Repr

namespace CacheMeta

/-- Record an access. -/
def touch (cached : CacheMeta) (generation : U64) : CacheMeta :=
  { cached with lastAccessed := cached.lastAccessed.push generation }

/-- The entry with its history brought to start at the beginning of the array. -/
def normalize (cached : CacheMeta) : CacheMeta := { cached with lastAccessed := cached.lastAccessed.rotateToNormalize }

/-- The score of a history: the differences to the current generation, each shifted by its place, and added up. -/
def score (lastAccessed : Vector U64 lastAccessedGens) (currentGen : U64) : U64 :=
  (List.finRange lastAccessedGens).foldl (fun score i => score + ((lastAccessed[i] - currentGen) >>> i.val)) 0

/-- The page's eviction score, with the entry as it is left. The higher the score, the more likely is the page evicted. -/
def evictionScore (cached : CacheMeta) (currentGen : U64) : CacheMeta × U64 :=
  (cached.normalize, score cached.normalize.lastAccessed.lastAccessed currentGen)

@[simp] theorem normalize_idx (cached : CacheMeta) : cached.normalize.idx = cached.idx := rfl

end CacheMeta

end Kobzar
