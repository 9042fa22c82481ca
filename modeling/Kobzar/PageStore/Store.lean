import Kobzar.Library.Search
import Kobzar.PageStore.Pages
import Kobzar.PageStore.Keys
import Kobzar.PageStore.Cache

/-!
# The page store

Pages in memory over files on disk, in the source's words: `fetch` finds the page of an item in the cache or loads
it, `itemPageMut` hands it out to be modified, and `evict` drops pages from the cache. What the file system decides
on its own is an input of each call (`Faults`), and so is the order in which the hash map hands out its keys
(`IterOrder`). The size of a page in bytes is that of its type, as in both instances of the store.
-/

namespace Kobzar

open Search

/-- A path, as its components. -/
abbrev Path : Type := List String

/-- The files on disk and their contents. -/
abbrev Files : Type := Path → Option (List U8)

/-- Why a page could not be read. -/
inductive PageReadError where
  | io (error : IoError)
  | unexpectedEof (name : String) (expected actual : Nat)
  deriving DecidableEq, Repr

/-- Errors that the file system reports for reasons of its own. -/
structure Faults where
  onOpen : Option IoError
  onRead : Option IoError
  deriving DecidableEq, Repr

/-- No fault of the file system. -/
def Faults.none : Faults := { onOpen := .none, onRead := .none }

/-- The order in which a hash map hands out its keys: any rearrangement of them. -/
structure IterOrder (B : Type) where
  arrange : List B → List B
  arrange_perm : ∀ keys, (arrange keys).Perm keys

/-- The keys as they come. -/
def IterOrder.id (B : Type) : IterOrder B := { arrange := fun keys => keys, arrange_perm := fun _ => .refl _ }

/-- The cached pages by their keys. -/
abbrev PageMap (B : Type) : Type := AList fun _ : B => CacheMeta

/-- Page store: the cached pages, the vacant places among them, and where each cached page lies. -/
structure PageStore (B P : Type) where
  lastGen : U64
  path : Path
  pages : List P
  vacantPages : List U32
  pageMap : PageMap B

/-- What a call leaves behind: the store, the files, and its result. -/
structure After (B P α : Type) where
  store : PageStore B P
  files : Files
  result : Except PageReadError α

/-- The page a call hands out to be modified: its place in the cache and its contents. -/
structure PageRef (P : Type) where
  idx : Nat
  page : P

/-- `OpenOptions` for reading and writing, creating a missing file when asked to. -/
def openFile (files : Files) (faults : Faults) (path : Path) (create : Bool) : Files × Except IoError (List U8) :=
  match faults.onOpen with
  | some e => (files, .error e)
  | none =>
    match files path with
    | some bytes => (files, .ok bytes)
    | none => if create then (Function.update files path (some []), .ok []) else (files, .error .notFound)

/-- `read_exact` on a file just opened: its first `size` bytes, if there are as many. -/
def readExact (faults : Faults) (bytes : List U8) (size : Nat) : Except IoError (List U8) :=
  match faults.onRead with
  | some e => .error e
  | none => if size ≤ bytes.length then .ok (bytes.take size) else .error .unexpectedEof

namespace PageStore

variable {K B P : Type} [DecidableEq B] [KeyExt K B] [KeyExt B B] [Pod P]

/-- A new store with room for `recs` pages. -/
def openAt (path : Path) (recs : Nat) : PageStore B P where
  lastGen := 0
  path := path
  pages := []
  vacantPages := (List.range recs).map (BitVec.ofNat 32)
  pageMap := ∅

/-- Record an access to a cached page. -/
def touch (store : PageStore B P) (itemKey : K) : Option (CacheMeta × PageStore B P) :=
  match store.pageMap.lookup (KeyExt.pageBound itemKey) with
  | some cached =>
    let cached := cached.touch store.lastGen
    let pageMap := store.pageMap.insert (KeyExt.pageBound itemKey) cached
    some (cached, { store with pageMap := pageMap, lastGen := store.lastGen + 1 })
  | none => none

/-- Load a page from its file. -/
def loadFromDisk (store : PageStore B P) (files : Files) (faults : Faults) (itemKey : B) (create : Bool) :
    Files × Except PageReadError P :=
  let filename := KeyExt.filename itemKey
  let path := store.path ++ [filename]
  match openFile files faults path create with
  | (files, .error e) => (files, .error (.io e))
  | (files, .ok file) =>
    match readExact faults file (Pod.size P) with
    | .error e => (files, .error (.io e))
    | .ok buffer =>
      if buffer.length ≠ Pod.size P then
        (files, .error (.unexpectedEof filename (Pod.size P) buffer.length))
      else
        (files, .ok (Pod.ofBytes buffer))

/-- Add a page just loaded to the cache. -/
def addPage (store : PageStore B P) (key : B) (page : P) : PageStore B P :=
  let idx := store.pages.length
  let cached := { idx := idx, dirty := false, lastAccessed := RingInline.new store.lastGen }
  { store with
    pages := store.pages ++ [page]
    pageMap := store.pageMap.insert key cached
    lastGen := store.lastGen + 1 }

/-- The metadata of a page that is in the cache. -/
def getCached (store : PageStore B P) (key : B) : Outcome CacheMeta :=
  match store.pageMap.lookup key with
  | some cached => .ok cached
  | none => .error (.message "Page should be in the cache, as we just loaded it")

/-- Find the page of an item in the cache, or load it. -/
def fetch (store : PageStore B P) (files : Files) (faults : Faults) (itemKey : K) (create : Bool) :
    Outcome (After B P CacheMeta) := do
  let key : B := KeyExt.pageBound itemKey
  match store.touch itemKey with
  | some (_, store) => return ⟨store, files, .ok (← store.getCached key)⟩
  | none =>
    match store.loadFromDisk files faults key create with
    | (files, .error e) => return ⟨store, files, .error e⟩
    | (files, .ok page) =>
      let store := store.addPage key page
      return ⟨store, files, .ok (← store.getCached key)⟩

/-- Hand out the page of an item to be modified, marked as dirty. -/
def itemPageMut (store : PageStore B P) (files : Files) (faults : Faults) (itemKey : K) (create : Bool) :
    Outcome (After B P (PageRef P)) := do
  let after ← store.fetch files faults itemKey create
  match after.result with
  | .error e => return ⟨after.store, after.files, .error e⟩
  | .ok cached =>
    let pageMap := after.store.pageMap.insert (KeyExt.pageBound itemKey) { cached with dirty := true }
    let store := { after.store with pageMap := pageMap }
    return ⟨store, after.files, .ok ⟨cached.idx, ← index store.pages cached.idx⟩⟩

/-- Write through a page that was handed out. -/
def writePage (store : PageStore B P) (idx : Nat) (page : P) : PageStore B P :=
  { store with pages := store.pages.set idx page }

end PageStore

/-! ## Eviction -/

/-- A cached page and its eviction score. -/
structure Scored (B : Type) where
  idx : Nat
  score : U64
  key : B
  deriving DecidableEq, Repr

/-- As many scored pages can be held: 64 of them have room in place, and beyond that an allocation of 40 bytes for
each of them is not larger than an allocation may be. -/
def CapacityFits (count : Nat) : Prop := count ≤ 64 ∨ 40 * count ≤ 2 ^ 63 - 8

instance (count : Nat) : Decidable (CapacityFits count) := inferInstanceAs (Decidable (_ ∨ _))

/-- `SmallVec::with_capacity`. -/
def withCapacity {B : Type} (count : Nat) : Outcome (List (Scored B)) :=
  if CapacityFits count then .ok [] else .error (.message "capacity overflow")

/-- `SmallVec::insert`. -/
def insertAt {α : Type} (xs : List α) (i : Nat) (x : α) : Outcome (List α) :=
  if i ≤ xs.length then .ok (xs.insertIdx i x) else .error (.message "index exceeds length")

/-- Where a binary search by score places a score: at a page that has it, or else where a page could be inserted. -/
def placeOf {B : Type} (search : BinarySearch) (toEvict : List (Scored B)) (score : U64) : Nat :=
  match search.run (fun s => compare s.score.toNat score.toNat) toEvict with
  | .ok idx => idx
  | .error idx => idx

/-- Put a scored page in its place among those chosen so far; when there are `count` of them, the last one makes room. -/
def retain {B : Type} (search : BinarySearch) (count : Nat) (toEvict : List (Scored B)) (scored : Scored B) :
    Outcome (List (Scored B)) :=
  let idx := placeOf search toEvict scored.score
  let toEvict := if count ≤ toEvict.length then toEvict.dropLast else toEvict
  insertAt toEvict idx scored

namespace PageStore

variable {B P : Type} [DecidableEq B]

/-- One pass of the scoring loop: the score of a page is computed, which normalises its history, and the page is
put in its place among those to evict. -/
def scorePage (search : BinarySearch) (count : Nat) (lastGen : U64) (pass : PageMap B × List (Scored B)) (key : B) :
    Outcome (PageMap B × List (Scored B)) :=
  match pass.1.lookup key with
  | none => .ok pass
  | some cached => do
    let (cached, score) := cached.evictionScore lastGen
    let toEvict ← retain search count pass.2 { idx := cached.idx, score := score, key := key }
    return (pass.1.insert key cached, toEvict)

/-- Evict `count` pages from the cache. -/
def evict (search : BinarySearch) (store : PageStore B P) (count : Nat) (order : IterOrder B) :
    Outcome (PageStore B P) := do
  let toEvict ← withCapacity count
  let (pageMap, toEvict) ←
    (order.arrange store.pageMap.keys).foldlM (scorePage search count store.lastGen) (store.pageMap, toEvict)
  return { store with
    pageMap := toEvict.foldl (fun pageMap scored => pageMap.erase scored.key) pageMap
    vacantPages := store.vacantPages ++ toEvict.map fun scored => BitVec.ofNat 32 scored.idx }

end PageStore

end Kobzar
