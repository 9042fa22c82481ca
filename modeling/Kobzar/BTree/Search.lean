import Kobzar.Library.Search
import Kobzar.BTree.Node

/-!
# Search in a B-tree index

`btreeSearch`, in the source's words. The page under a key comes from `loadIdx`, a parameter. The recursion goes
down the tree and is given fuel; running out of it is an outcome of its own.
-/

namespace Kobzar.BTree

open Search

/-- What a search found: from the first match in a page to the last match in a page. -/
structure SearchOutcome where
  startPage : U64
  endPage : U64
  startKeyId : Nat
  endKeyId : Nat
  deriving DecidableEq, Repr

namespace SearchOutcome

/-- Two outcomes as one. -/
def merge (a b : SearchOutcome) : SearchOutcome where
  startPage := if b.startPage < a.startPage then b.startPage else a.startPage
  endPage := if a.endPage < b.endPage then b.endPage else a.endPage
  startKeyId := min a.startKeyId b.startKeyId
  endKeyId := max a.endKeyId b.endKeyId

/-- The number of key positions from the first to the last. -/
def keyLen (outcome : SearchOutcome) : Nat := outcome.endKeyId - outcome.startKeyId

end SearchOutcome

/-- What to search for, and in which tree. -/
structure SearchCfg where
  value : List U8
  root : IdxKey
  isRootLeaf : Bool
  isBlobs : Bool
  limit : Nat

/-- The search in a child page, with what is left of the limit. -/
def SearchCfg.child (cfg : SearchCfg) (child : ChildFilePageOffset) (limit : Nat) : SearchCfg :=
  { cfg with root := { cfg.root with page := child.intoInner }, isRootLeaf := child.isLeaf, limit := limit }

/-- The value as a key: padded with zeros to sixteen bytes. A longer value does not fit. -/
def padded (value : List U8) : Outcome Key :=
  if h : value.length ≤ 16 then
    .ok { inline := value ++ List.replicate (16 - value.length) 0, length_eq := by simp; omega }
  else .error .indexOutOfBounds

/-- The scan to the left: while the key matches, go one place on, if there is one. -/
def scanLeft (keys : List Key) (value : Key) : Nat → Outcome Nat
  | 0 => do
    let _ ← index keys 0
    return 0
  | startKeyId + 1 => do
    if (← index keys (startKeyId + 1)) = value then scanLeft keys value startKeyId else return startKeyId + 1

/-- The scan to the right, with the number of places left to go on to. -/
def scanRight (keys : List Key) (value : Key) : Nat → Nat → Outcome Nat
  | 0, endKeyId => do
    let _ ← index keys endKeyId
    return endKeyId
  | left + 1, endKeyId => do
    if (← index keys endKeyId) = value then scanRight keys value left (endKeyId + 1) else return endKeyId

/-- The loop over the children of a branch page, with the number of them left: each is searched while the limit allows. -/
def visitChildren (searchChild : SearchCfg → Outcome (Option SearchOutcome)) (cfg : SearchCfg)
    (children : List ChildFilePageOffset) : Nat → Nat → Nat → SearchOutcome → Outcome SearchOutcome
  | 0, _, _, merged => return merged
  | left + 1, cur, results, merged => do
    if results < cfg.limit then
      let child ← index children cur
      match ← searchChild (cfg.child child (cfg.limit - results)) with
      | none => .error (.message "Expected to find Some result, but got None")
      | some result =>
        visitChildren searchChild cfg children left (cur + 1) (results + result.keyLen) (merged.merge result)
    else return merged

/-- Search among inline keys. -/
def searchInline (search : BinarySearch) (loadIdx : IdxKey → IdxPage) : Nat → SearchCfg →
    Outcome (Option SearchOutcome)
  | 0, _ => .error .outOfFuel
  | fuel + 1, cfg => do
    let value ← padded cfg.value
    let cur := loadIdx cfg.root
    let keys ← countedKeys cfg.isRootLeaf cur
    match search.run (fun key => compare key value) keys with
    | .error _ => return none
    | .ok found =>
      let startKeyId ← scanLeft keys value found
      let endKeyId ← scanRight keys value (keys.length - 1 - found) found
      let outcome : SearchOutcome :=
        { startPage := cfg.root.page, endPage := cfg.root.page, startKeyId := startKeyId, endKeyId := endKeyId }
      if cfg.isRootLeaf then return some outcome
      else
        let children := (Node.fromRaw cur).children
        return some (← visitChildren (searchInline search loadIdx fuel) cfg children (endKeyId - startKeyId) startKeyId
          outcome.keyLen outcome)

/-- Search for a value. Indexes of blobs are not searched yet. -/
def btreeSearch (search : BinarySearch) (loadIdx : IdxKey → IdxPage) (fuel : Nat) (cfg : SearchCfg) :
    Outcome (Option SearchOutcome) :=
  if cfg.isBlobs then .error (.message "not yet implemented") else searchInline search loadIdx fuel cfg

end Kobzar.BTree
