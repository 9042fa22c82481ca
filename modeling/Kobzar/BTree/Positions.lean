import Kobzar.Library.Extremes
import Kobzar.BTree.Lookup

/-!
# The positions a search reports

A position is a page and a place in it. In a leaf the scans stop one place beyond the run of matches wherever there
is one, so that the run is reported exactly when nothing else stands in the leaf (`leaf_run_exact_iff`). The
outcomes of the children visited are merged number by number, so that the first child's start and the last child's
end come out exactly when all four of their numbers are extreme (`merge_spans_iff`).
-/

namespace Kobzar.BTree

open Search Extremes

/-! ## The run in a leaf -/

/-- The first place that holds the value. -/
def FirstAt (keys : List Key) (value : Key) (i : Nat) : Prop :=
  keys[i]? = some value ∧ ∀ j < i, keys[j]? ≠ some value

/-- The last place that holds the value. -/
def LastAt (keys : List Key) (value : Key) (i : Nat) : Prop :=
  keys[i]? = some value ∧ ∀ j > i, keys[j]? ≠ some value

section Run

variable {keys : List Key} {value : Key} (hs : keys.Pairwise (· ≤ ·)) (hmem : value ∈ keys)
include hs hmem

/-- The scan to the left stops at the first match when no key stands before it. -/
theorem runStart_first_iff : FirstAt keys value (runStart keys value) ↔ below keys value = 0 := by
  have hlt := (mem_iff_below_lt_upTo hs).mp hmem
  have hstart : runStart keys value = below keys value - 1 := rfl
  constructor
  · rintro ⟨hget, -⟩
    obtain ⟨hj, heq⟩ := List.getElem?_eq_some_iff.mp hget
    have := (getElem_eq_iff hs hj).mp heq
    omega
  · intro hzero
    have hzero' : runStart keys value = 0 := by omega
    have hpos : 0 < keys.length := List.length_pos_of_mem hmem
    have heq : keys[0] = value := (getElem_eq_iff hs hpos).mpr (by omega)
    rw [hzero']
    refine ⟨?_, fun j hj => absurd hj (Nat.not_lt_zero j)⟩
    rw [List.getElem?_eq_getElem hpos, heq]

/-- The scan to the right stops at the last match when no key stands behind it. -/
theorem runEnd_last_iff : LastAt keys value (runEnd keys value) ↔ upTo keys value = keys.length := by
  have hlt := (mem_iff_below_lt_upTo hs).mp hmem
  have hle : upTo keys value ≤ keys.length := List.countP_le_length
  have hend : runEnd keys value = min (upTo keys value) (keys.length - 1) := rfl
  constructor
  · rintro ⟨hget, -⟩
    obtain ⟨hj, heq⟩ := List.getElem?_eq_some_iff.mp hget
    have := (getElem_eq_iff hs hj).mp heq
    omega
  · intro hall
    have hlast : runEnd keys value = keys.length - 1 := by omega
    have hj : keys.length - 1 < keys.length := by omega
    have heq : keys[keys.length - 1] = value := (getElem_eq_iff hs hj).mpr (by omega)
    rw [hlast]
    constructor
    · rw [List.getElem?_eq_getElem hj, heq]
    · intro j hgt
      rw [List.getElem?_eq_none (by omega)]
      exact nofun

/-- No key stands before or behind the run when all keys are the value. -/
theorem run_all_iff : below keys value = 0 ∧ upTo keys value = keys.length ↔ ∀ key ∈ keys, key = value := by
  have hpos : 0 < keys.length := List.length_pos_of_mem hmem
  have hle : upTo keys value ≤ keys.length := List.countP_le_length
  constructor
  · rintro ⟨hzero, hall⟩ key hkey
    obtain ⟨j, hj, rfl⟩ := List.getElem_of_mem hkey
    exact (getElem_eq_iff hs hj).mpr (by omega)
  · intro hall
    have hlast : keys.length - 1 < keys.length := by omega
    have hfirst := (getElem_eq_iff hs hpos).mp (hall _ (List.getElem_mem hpos))
    have hend := (getElem_eq_iff hs hlast).mp (hall _ (List.getElem_mem hlast))
    omega

end Run

/-- When a search in a leaf reports the run of matches: exactly when there is none, or every key of the leaf matches. -/
theorem leaf_run_exact_iff (search : BinarySearch) {loadIdx : IdxKey → IdxPage} (fuel : Nat) {cfg : SearchCfg}
    {keys : List Key} {value : Key} (hleaf : cfg.isRootLeaf = true) (hinline : cfg.isBlobs = false)
    (hv : padded cfg.value = .ok value) (hk : countedKeys true (loadIdx cfg.root) = .ok keys)
    (hs : keys.Pairwise (· ≤ ·)) :
    (∃ r, btreeSearch search loadIdx (fuel + 1) cfg = .ok r ∧ (value ∈ keys → ∃ outcome, r = some outcome ∧
      FirstAt keys value outcome.startKeyId ∧ LastAt keys value outcome.endKeyId)) ↔
        (value ∉ keys ∨ ∀ key ∈ keys, key = value) := by
  rw [← hleaf] at hk
  rw [btreeSearch_inline search loadIdx _ hinline]
  by_cases hmem : value ∈ keys
  · rw [searchInline_hit hv hk hs hmem, if_pos hleaf]
    constructor
    · rintro ⟨r, hr, hrun⟩
      cases hr
      obtain ⟨outcome, houtcome, hfirst, hlast⟩ := hrun hmem
      cases houtcome
      exact Or.inr ((run_all_iff hs hmem).mp ⟨(runStart_first_iff hs hmem).mp hfirst,
        (runEnd_last_iff hs hmem).mp hlast⟩)
    · intro hall
      obtain ⟨hzero, hend⟩ := (run_all_iff hs hmem).mpr (hall.resolve_left fun hnot => hnot hmem)
      exact ⟨_, rfl, fun _ => ⟨_, rfl, (runStart_first_iff hs hmem).mpr hzero,
        (runEnd_last_iff hs hmem).mpr hend⟩⟩
  · exact iff_of_true ⟨none, searchInline_miss hv hk hs hmem, fun h => absurd h hmem⟩ (Or.inl hmem)

/-- The search for a byte in a leaf. -/
def leafCfg (byte : U8) (limit : Nat) : SearchCfg :=
  { value := [byte], root := exampleRoot, isRootLeaf := true, isBlobs := false, limit := limit }

/-- The run in a leaf that holds one key three times is the whole leaf. -/
theorem leaf_run_exact_one_key : ∃ r, btreeSearch .halving (fun _ => leafPage [5, 5, 5]) 1 (leafCfg 5 10) = .ok r ∧
    (byteKey 5 ∈ [byteKey 5, byteKey 5, byteKey 5] → ∃ outcome, r = some outcome ∧
      FirstAt [byteKey 5, byteKey 5, byteKey 5] (byteKey 5) outcome.startKeyId ∧
        LastAt [byteKey 5, byteKey 5, byteKey 5] (byteKey 5) outcome.endKeyId) :=
  (leaf_run_exact_iff .halving 0 rfl rfl (by decide) (by decide +kernel) (by decide)).mpr (Or.inr (by decide))

/-- In a leaf that holds 4, 5 and 6, the one match is reported from the key before it to the key behind it. -/
theorem leaf_run_too_wide : countedKeys true (leafPage [4, 5, 6]) = .ok [byteKey 4, byteKey 5, byteKey 6] ∧
    [byteKey 4, byteKey 5, byteKey 6].Pairwise (· ≤ ·) ∧ padded (leafCfg 5 10).value = .ok (byteKey 5) ∧
    byteKey 5 ∈ [byteKey 4, byteKey 5, byteKey 6] ∧
    ∃ outcome, btreeSearch .halving (fun _ => leafPage [4, 5, 6]) 1 (leafCfg 5 10) = .ok (some outcome) ∧
      ¬FirstAt [byteKey 4, byteKey 5, byteKey 6] (byteKey 5) outcome.startKeyId ∧
        ¬LastAt [byteKey 4, byteKey 5, byteKey 6] (byteKey 5) outcome.endKeyId := by
  refine ⟨by decide +kernel, by decide, by decide, by decide, ⟨0, 0, 0, 2⟩, by decide +kernel, ?_, ?_⟩
  · rintro ⟨hget, -⟩
    exact absurd hget (by decide)
  · rintro ⟨hget, -⟩
    exact absurd hget (by decide)

/-! ## Merged outcomes -/

/-- The outcome reaches from the start of one outcome to the end of another, a position being a page and a place in it. -/
structure SearchOutcome.Spans (outcome first last : SearchOutcome) : Prop where
  startPage_eq : outcome.startPage = first.startPage
  startKeyId_eq : outcome.startKeyId = first.startKeyId
  endPage_eq : outcome.endPage = last.endPage
  endKeyId_eq : outcome.endKeyId = last.endKeyId

/-- The outcome lies within the pages and the places of two others, each of the four numbers for itself. -/
structure SearchOutcome.Within (outcome first last : SearchOutcome) : Prop where
  startPage_le : first.startPage ≤ outcome.startPage
  startKeyId_le : first.startKeyId ≤ outcome.startKeyId
  endPage_le : outcome.endPage ≤ last.endPage
  endKeyId_le : outcome.endKeyId ≤ last.endKeyId

namespace SearchOutcome

/-- Merging keeps the smaller of the start pages. -/
theorem keepsLeast_startPage : KeepsLeast merge fun outcome => outcome.startPage.toNat := by
  intro a b
  simp only [merge, BitVec.lt_def]
  split <;> omega

/-- Merging keeps the smaller of the start places. -/
theorem keepsLeast_startKeyId : KeepsLeast merge startKeyId := fun _ _ => rfl

/-- Merging keeps the greater of the end pages. -/
theorem keepsLeast_endPage : KeepsLeast merge fun outcome => OrderDual.toDual outcome.endPage.toNat := by
  intro a b
  rw [← toDual_max, OrderDual.toDual_inj]
  simp only [merge, BitVec.lt_def]
  split <;> omega

/-- Merging keeps the greater of the end places. -/
theorem keepsLeast_endKeyId : KeepsLeast merge fun outcome => OrderDual.toDual outcome.endKeyId := fun _ _ => rfl

/-- Merged outcomes reach from the start of one to the end of another exactly when all lie within these two. -/
theorem foldl_merge_spans_iff {outcome first last : SearchOutcome} {outcomes : List SearchOutcome}
    (hfirst : first ∈ outcome :: outcomes) (hlast : last ∈ outcome :: outcomes) :
    (outcomes.foldl merge outcome).Spans first last ↔ ∀ other ∈ outcome :: outcomes, other.Within first last := by
  have hstart := ((HasLeast.singleton _ outcome).foldl keepsLeast_startPage outcomes).eq_iff hfirst
  have hstart' := ((HasLeast.singleton _ outcome).foldl keepsLeast_startKeyId outcomes).eq_iff hfirst
  have hend := ((HasLeast.singleton _ outcome).foldl keepsLeast_endPage outcomes).eq_iff hlast
  have hend' := ((HasLeast.singleton _ outcome).foldl keepsLeast_endKeyId outcomes).eq_iff hlast
  simp only [BitVec.toNat_inj, OrderDual.toDual_inj, OrderDual.toDual_le_toDual, ← BitVec.le_def] at hstart hend hend'
  constructor
  · rintro ⟨hpage, hkey, hpage', hkey'⟩ other hother
    exact ⟨hstart.mp hpage other hother, hstart'.mp hkey other hother, hend.mp hpage' other hother,
      hend'.mp hkey' other hother⟩
  · intro hwithin
    exact ⟨hstart.mpr fun other hother => (hwithin other hother).startPage_le,
      hstart'.mpr fun other hother => (hwithin other hother).startKeyId_le,
      hend.mpr fun other hother => (hwithin other hother).endPage_le,
      hend'.mpr fun other hother => (hwithin other hother).endKeyId_le⟩

/-- Two merged outcomes reach from the start of the one to the end of the other exactly when the one starts at a
page and a place no greater, and the other ends at a page and a place no less. -/
theorem merge_spans_iff (a b : SearchOutcome) : (a.merge b).Spans a b ↔
    (a.startPage ≤ b.startPage ∧ a.startKeyId ≤ b.startKeyId) ∧ a.endPage ≤ b.endPage ∧
      a.endKeyId ≤ b.endKeyId := by
  have hfold : (a.merge b).Spans a b ↔ ∀ other ∈ a :: [b], other.Within a b :=
    @foldl_merge_spans_iff a a b [b] List.mem_cons_self (List.mem_cons_of_mem _ List.mem_cons_self)
  rw [hfold, List.forall_mem_cons, List.forall_mem_singleton]
  constructor
  · rintro ⟨⟨-, -, hpage', hkey'⟩, ⟨hpage, hkey, -, -⟩⟩
    exact ⟨⟨hpage, hkey⟩, hpage', hkey'⟩
  · rintro ⟨⟨hpage, hkey⟩, hpage', hkey'⟩
    exact ⟨⟨BitVec.le_refl _, Nat.le_refl _, hpage', hkey'⟩, ⟨hpage, hkey, BitVec.le_refl _, Nat.le_refl _⟩⟩

end SearchOutcome

/-! ## The children visited -/

/-- The outcomes in the children that the loop visits. -/
def visitedOutcomes (searchChild : SearchCfg → Outcome (Option SearchOutcome)) (cfg : SearchCfg)
    (children : List ChildFilePageOffset) : Nat → Nat → Nat → Outcome (List SearchOutcome)
  | 0, _, _ => return []
  | left + 1, cur, results => do
    if results < cfg.limit then
      let child ← index children cur
      match ← searchChild (cfg.child child (cfg.limit - results)) with
      | none => .error unexpectedNone
      | some result =>
        return result :: (← visitedOutcomes searchChild cfg children left (cur + 1) (results + result.keyLen))
    else return []

/-- The loop merges the outcomes in the children into the one that it starts with. -/
theorem visitChildren_eq (searchChild : SearchCfg → Outcome (Option SearchOutcome)) (cfg : SearchCfg)
    (children : List ChildFilePageOffset) (left cur results : Nat) (merged : SearchOutcome) :
    visitChildren searchChild cfg children left cur results merged = do
      let outcomes ← visitedOutcomes searchChild cfg children left cur results
      return outcomes.foldl SearchOutcome.merge merged := by
  induction left generalizing cur results merged with
  | zero => rfl
  | succ left ih =>
    unfold visitChildren visitedOutcomes
    by_cases hroom : results < cfg.limit
    · rw [if_pos hroom, if_pos hroom]
      cases hchild : index children cur with
      | error e => rfl
      | ok child =>
        simp only [ok_bind]
        cases hresult : searchChild (cfg.child child (cfg.limit - results)) with
        | error e => rfl
        | ok result =>
          cases result with
          | none => rfl
          | some result =>
            simp only [ok_bind, ih]
            cases visitedOutcomes searchChild cfg children left (cur + 1) (results + result.keyLen) <;> rfl
    · rw [if_neg hroom, if_neg hroom]
      rfl

/-- When merged outcomes keep the positions. Two of them reach from the start of the one to the end of the other
exactly when this is no smaller and that no greater in page and place, each for itself. What a search finds from a
branch page on reaches from the start of the first child's outcome to the end of the last child's exactly when the
branch page's own outcome, and those of all children visited, lie within these two. -/
theorem merge_keeps_positions_iff (search : BinarySearch) {loadIdx : IdxKey → IdxPage} (fuel : Nat) {cfg : SearchCfg}
    {keys : List Key} {value : Key} {outcomes : List SearchOutcome} (hbranch : cfg.isRootLeaf = false)
    (hinline : cfg.isBlobs = false) (hv : padded cfg.value = .ok value)
    (hk : countedKeys false (loadIdx cfg.root) = .ok keys) (hs : keys.Pairwise (· ≤ ·)) (hmem : value ∈ keys)
    (hvisited : visitedOutcomes (searchInline search loadIdx fuel) cfg (Node.fromRaw (loadIdx cfg.root)).children
      (runEnd keys value - runStart keys value) (runStart keys value) (runEnd keys value - runStart keys value) =
        .ok outcomes) :
    (∀ a b : SearchOutcome, (a.merge b).Spans a b ↔
      (a.startPage ≤ b.startPage ∧ a.startKeyId ≤ b.startKeyId) ∧ a.endPage ≤ b.endPage ∧
        a.endKeyId ≤ b.endKeyId) ∧
    ∃ merged, btreeSearch search loadIdx (fuel + 1) cfg = .ok (some merged) ∧
      ∀ first last, outcomes.head? = some first → outcomes.getLast? = some last →
        (merged.Spans first last ↔ ∀ other ∈ pageOutcome cfg keys value :: outcomes, other.Within first last) := by
  refine ⟨SearchOutcome.merge_spans_iff, outcomes.foldl SearchOutcome.merge (pageOutcome cfg keys value), ?_, ?_⟩
  · rw [← hbranch] at hk
    rw [btreeSearch_inline search loadIdx _ hinline, searchInline_hit hv hk hs hmem, hbranch, visitChildren_eq, hvisited]
    rfl
  · intro first last hfirst hlast
    exact SearchOutcome.foldl_merge_spans_iff (List.mem_cons_of_mem _ (List.mem_of_head? hfirst))
      (List.mem_cons_of_mem _ (List.mem_of_getLast? hlast))

/-- A root on page 2 with the keys 5, 5 and 7 over the leaves 1, 3 and 4. -/
def orderedPages (key : IdxKey) : IdxPage :=
  match key.page.toNat with
  | 1 => leafPage [5, 5]
  | 2 => branchPage [5, 5, 7] [1, 3, 4]
  | 3 => leafPage [5, 5, 6]
  | _ => leafPage [7]

/-- The search for the key 5 in this tree. -/
def orderedCfg : SearchCfg := { exampleCfg 5 with root := { exampleRoot with page := 2 } }

/-- Two leaves are visited, one before the root and one behind it in the file, and what is found reaches from the
start of the one to the end of the other. -/
theorem merge_keeps_positions_ordered : ∃ merged, btreeSearch .halving orderedPages 2 orderedCfg = .ok (some merged) ∧
    merged.Spans ⟨1, 1, 0, 1⟩ ⟨3, 3, 0, 2⟩ := by
  have hkeys : countedKeys false (orderedPages orderedCfg.root) = .ok [byteKey 5, byteKey 5, byteKey 7] := by
    decide +kernel
  have hvisited : visitedOutcomes (searchInline .halving orderedPages 1) orderedCfg
      (Node.fromRaw (orderedPages orderedCfg.root)).children
      (runEnd [byteKey 5, byteKey 5, byteKey 7] (byteKey 5) - runStart [byteKey 5, byteKey 5, byteKey 7] (byteKey 5))
      (runStart [byteKey 5, byteKey 5, byteKey 7] (byteKey 5))
      (runEnd [byteKey 5, byteKey 5, byteKey 7] (byteKey 5) - runStart [byteKey 5, byteKey 5, byteKey 7] (byteKey 5)) =
        .ok [⟨1, 1, 0, 1⟩, ⟨3, 3, 0, 2⟩] := by
    decide +kernel
  obtain ⟨-, merged, hrun, hspans⟩ :=
    merge_keeps_positions_iff .halving 1 rfl rfl (by decide) hkeys (by decide) (by decide) hvisited
  refine ⟨merged, hrun, (hspans _ _ rfl rfl).mpr fun other hother => ?_⟩
  -- the root's own outcome, and those of the two leaves
  simp only [List.mem_cons, List.not_mem_nil, or_false] at hother
  rcases hother with rfl | rfl | rfl
  · exact ⟨by decide, by decide, by decide, by decide⟩
  · exact ⟨by decide, by decide, by decide, by decide⟩
  · exact ⟨by decide, by decide, by decide, by decide⟩

/-! ### A root with the keys 5, 5 and 7 over leaves with the keys 5, 5, then 5, 6, then 7 -/

/-- The pages of the tree: the first leaf has a higher number than the second. -/
def numberedPages (key : IdxKey) : IdxPage :=
  match key.page.toNat with
  | 0 => branchPage [5, 5, 7] [2, 1, 3]
  | 1 => leafPage [5, 6]
  | 2 => leafPage [5, 5]
  | _ => leafPage [7]

/-- The children of the root. -/
def numberedChild : Nat → ChildFilePageOffset
  | 0 => ⟨2 ||| ChildFilePageOffset.leafFlag⟩
  | 1 => ⟨1 ||| ChildFilePageOffset.leafFlag⟩
  | _ => ⟨3 ||| ChildFilePageOffset.leafFlag⟩

/-- The keys of the leaves below them. -/
def numberedKeys : Nat → List Key
  | 0 => [byteKey 5, byteKey 5]
  | 1 => [byteKey 5, byteKey 6]
  | _ => [byteKey 7]

theorem isTree_numberedPages :
    IsTree numberedPages 1 false exampleRoot [byteKey 5, byteKey 5, byteKey 5, byteKey 6, byteKey 7] := by
  have hroot : countedKeys false (numberedPages exampleRoot) = .ok [byteKey 5, byteKey 5, byteKey 7] := by decide +kernel
  have hchild : ∀ i < 3, (Node.fromRaw (numberedPages exampleRoot)).children[i]? = some (numberedChild i) := by
    decide +kernel
  have hleaf : ∀ i < 3, (numberedChild i).isLeaf = true ∧
      countedKeys true (numberedPages { exampleRoot with page := (numberedChild i).intoInner }) = .ok (numberedKeys i) ∧
      (numberedKeys i).Pairwise (· ≤ ·) := by decide +kernel
  refine @IsTree.branch _ _ _ _ numberedKeys hroot (by decide) ?_ (by decide) ?_
  · intro i child hi hget
    obtain rfl : numberedChild i = child := Option.some.inj ((hchild i hi).symm.trans hget)
    obtain ⟨hflag, hcounted, hsorted⟩ := hleaf i hi
    rw [hflag]
    exact IsTree.leaf hcounted hsorted
  · intro i hi
    have hi' : i < 2 := Nat.lt_of_succ_lt_succ hi
    interval_cases i <;> decide +revert

/-- The positions of the one outcome come before those of the other, for some order of the pages. -/
def SearchOutcome.Before (place : U64 → Nat) (a b : SearchOutcome) : Prop :=
  place a.endPage < place b.startPage ∨ place a.endPage = place b.startPage ∧ a.endKeyId < b.startKeyId

/-- The order of the leaves in the tree. -/
def numberedPlace (page : U64) : Nat := if page = 2 then 0 else if page = 1 then 1 else 2

/-- Of the two leaves visited for the key 5 the first has the higher number: merged, they reach from the second
leaf to the first, and with the root's own outcome from the root to the first leaf. -/
theorem merge_loses_positions :
    IsTree numberedPages 1 (exampleCfg 5).isRootLeaf (exampleCfg 5).root
        [byteKey 5, byteKey 5, byteKey 5, byteKey 6, byteKey 7] ∧
      visitedOutcomes (searchInline .halving numberedPages 1) (exampleCfg 5)
        (Node.fromRaw (numberedPages (exampleCfg 5).root)).children 2 0 2 = .ok [⟨2, 2, 0, 1⟩, ⟨1, 1, 0, 1⟩] ∧
      SearchOutcome.Before numberedPlace ⟨2, 2, 0, 1⟩ ⟨1, 1, 0, 1⟩ ∧
      ¬(SearchOutcome.merge ⟨2, 2, 0, 1⟩ ⟨1, 1, 0, 1⟩).Spans ⟨2, 2, 0, 1⟩ ⟨1, 1, 0, 1⟩ ∧
      ∃ merged, btreeSearch .halving numberedPages 2 (exampleCfg 5) = .ok (some merged) ∧
        ¬merged.Spans ⟨2, 2, 0, 1⟩ ⟨1, 1, 0, 1⟩ := by
  refine ⟨isTree_numberedPages, by decide +kernel, Or.inl (by decide), ?_, ⟨0, 2, 0, 2⟩, by decide +kernel, ?_⟩
  · intro h
    exact absurd h.startPage_eq (by decide)
  · intro h
    exact absurd h.startPage_eq (by decide)

end Kobzar.BTree
