import Kobzar.BTree.Search

/-!
# What a search finds

Trees of pages (`IsTree`) and when a search in one succeeds. In a page the search finds the run of keys equal to
the value and goes on in the children from the key before the run. A value that is no separator is not looked for
further down, and a run that does not start at the first key makes the search enter a child that need not hold the
value. The search succeeds exactly along the path that `Finds` describes (`searchInline_spec`).
-/

namespace Kobzar.BTree

open Search

/-- A finite tree of pages of some height, with the keys of its leaves from left to right: the counted keys of each
page are sorted, each key of a branch page is the least of the tree below its child, and no key there exceeds the
next one. -/
inductive IsTree (loadIdx : IdxKey → IdxPage) : Nat → Bool → IdxKey → List Key → Prop
  | leaf {height : Nat} {root : IdxKey} {keys : List Key} (counted : countedKeys true (loadIdx root) = .ok keys)
      (sorted : keys.Pairwise (· ≤ ·)) : IsTree loadIdx height true root keys
  | branch {height : Nat} {root : IdxKey} {keys : List Key} {sub : Nat → List Key}
      (counted : countedKeys false (loadIdx root) = .ok keys) (sorted : keys.Pairwise (· ≤ ·))
      (children : ∀ i child, i < keys.length → (Node.fromRaw (loadIdx root)).children[i]? = some child →
        IsTree loadIdx height child.isLeaf { root with page := child.intoInner } (sub i))
      (least : ∀ i (hi : i < keys.length), keys[i] ∈ sub i ∧ ∀ key ∈ sub i, keys[i] ≤ key)
      (upper : ∀ i (hi : i + 1 < keys.length), ∀ key ∈ sub i, key ≤ keys[i + 1]) :
      IsTree loadIdx (height + 1) false root ((List.range keys.length).flatMap sub)

/-! ## The run of keys equal to the value -/

/-- The number of keys below a value. -/
def below (keys : List Key) (value : Key) : Nat := keys.countP fun key => decide (key < value)

/-- The number of keys up to a value. -/
def upTo (keys : List Key) (value : Key) : Nat := keys.countP fun key => decide (key ≤ value)

/-- The key before the run, or the first key. -/
def runStart (keys : List Key) (value : Key) : Nat := below keys value - 1

/-- The key behind the run, or the last key. -/
def runEnd (keys : List Key) (value : Key) : Nat := min (upTo keys value) (keys.length - 1)

section Run

variable {keys : List Key} {value : Key} (hs : keys.Pairwise (· ≤ ·))
include hs

/-- Among sorted keys the ones equal to the value are those behind the lower ones and before the higher ones. -/
theorem getElem_eq_iff {j : Nat} (hj : j < keys.length) : keys[j] = value ↔
    below keys value ≤ j ∧ j < upTo keys value := by
  have hlow := sat_iff_lt_countP (p := fun key => decide (key < value))
    (hs.imp fun hab => by simpa using fun hb => lt_of_le_of_lt hab hb) hj
  have hup := sat_iff_lt_countP (p := fun key => decide (key ≤ value))
    (hs.imp fun hab => by simpa using fun hb => le_trans hab hb) hj
  simp only [decide_eq_true_eq] at hlow hup
  rw [below, upTo, ← hup, ← not_lt, ← hlow, not_lt]
  constructor
  · rintro rfl
    exact ⟨le_refl _, le_refl _⟩
  · rintro ⟨hge, hle⟩
    exact le_antisymm hle hge

/-- The value is among sorted keys when some key is neither below nor above it. -/
theorem mem_iff_below_lt_upTo : value ∈ keys ↔ below keys value < upTo keys value := by
  have hle : upTo keys value ≤ keys.length := List.countP_le_length
  constructor
  · intro hmem
    obtain ⟨j, hj, hjv⟩ := List.getElem_of_mem hmem
    have := (getElem_eq_iff hs hj).mp hjv
    omega
  · intro hlt
    have hj : below keys value < keys.length := by omega
    have heq := (getElem_eq_iff hs hj).mpr ⟨Nat.le_refl _, hlt⟩
    exact heq ▸ List.getElem_mem hj

/-- The bounds of the run of a value that is among the keys. -/
theorem run_bounds (hmem : value ∈ keys) :
    below keys value < keys.length ∧ runEnd keys value ≤ keys.length - 1 ∧ runEnd keys value ≤ upTo keys value ∧
      below keys value ≤ runEnd keys value := by
  have hlt := (mem_iff_below_lt_upTo hs).mp hmem
  have hle : upTo keys value ≤ keys.length := List.countP_le_length
  refine ⟨by omega, Nat.min_le_right _ _, Nat.min_le_left _ _, ?_⟩
  unfold runEnd
  omega

/-- The scan to the left ends at the key before the run, or at the first key. -/
theorem scanLeft_eq {startKeyId : Nat} (hlow : below keys value ≤ startKeyId + 1) (hup : startKeyId < upTo keys value) :
    scanLeft keys value startKeyId = .ok (runStart keys value) := by
  have hle : upTo keys value ≤ keys.length := List.countP_le_length
  induction startKeyId with
  | zero =>
    rw [scanLeft, index_of_lt (by omega), ok_bind, runStart]
    have hzero : below keys value - 1 = 0 := by omega
    rw [hzero]
    rfl
  | succ startKeyId ih =>
    have hj : startKeyId + 1 < keys.length := by omega
    rw [scanLeft, index_of_lt hj, ok_bind]
    split
    · rename_i heq
      have := (getElem_eq_iff hs hj).mp heq
      exact ih (by omega) (by omega)
    · rename_i hne
      have hbelow : below keys value = startKeyId + 2 := by
        have := mt (getElem_eq_iff hs hj).mpr hne
        omega
      rw [runStart, hbelow]
      rfl

/-- The scan to the right ends at the key behind the run, or at the last key. -/
theorem scanRight_eq (left : Nat) {endKeyId : Nat} (hlow : below keys value ≤ endKeyId)
    (hup : endKeyId ≤ upTo keys value)
    (hleft : endKeyId + left + 1 = keys.length) : scanRight keys value left endKeyId = .ok (runEnd keys value) := by
  have hle : upTo keys value ≤ keys.length := List.countP_le_length
  induction left generalizing endKeyId with
  | zero =>
    rw [scanRight, index_of_lt (by omega), ok_bind, runEnd]
    have hlast : min (upTo keys value) (keys.length - 1) = endKeyId := by omega
    rw [hlast]
    rfl
  | succ left ih =>
    have hj : endKeyId < keys.length := by omega
    rw [scanRight, index_of_lt hj, ok_bind]
    split
    · rename_i heq
      have := (getElem_eq_iff hs hj).mp heq
      exact ih (by omega) (by omega) (by omega)
    · rename_i hne
      have hend : runEnd keys value = endKeyId := by
        have := mt (getElem_eq_iff hs hj).mpr hne
        unfold runEnd
        omega
      rw [hend]
      rfl

end Run

/-! ## One page -/

/-- What a search found in one page. -/
def pageOutcome (cfg : SearchCfg) (keys : List Key) (value : Key) : SearchOutcome :=
  { startPage := cfg.root.page, endPage := cfg.root.page, startKeyId := runStart keys value,
    endKeyId := runEnd keys value }

section Page

variable {search : BinarySearch} {loadIdx : IdxKey → IdxPage} {fuel : Nat} {cfg : SearchCfg} {keys : List Key}
  {value : Key}
  (hv : padded cfg.value = .ok value) (hk : countedKeys cfg.isRootLeaf (loadIdx cfg.root) = .ok keys)
  (hs : keys.Pairwise (· ≤ ·))
include hv hk hs

/-- A value that is not among a page's keys is not found. -/
theorem searchInline_miss (hmem : value ∉ keys) : searchInline search loadIdx (fuel + 1) cfg = .ok none := by
  have hans := search.run_answers (Cut.of_sorted (fun key : Key => key) value hs)
  simp only [searchInline, hv, hk, ok_bind]
  cases hrun : search.run (fun key => compare key value) keys with
  | error place => rfl
  | ok found =>
    rw [hrun] at hans
    obtain ⟨hfound, heq⟩ := hans
    exact absurd (compare_eq_iff_eq.mp heq ▸ List.getElem_mem hfound) hmem

/-- When a value is among a page's keys, the scans end at the two ends of its run. -/
theorem searchInline_hit (hmem : value ∈ keys) : searchInline search loadIdx (fuel + 1) cfg =
    if cfg.isRootLeaf then .ok (some (pageOutcome cfg keys value))
    else do
      let merged ← visitChildren (searchInline search loadIdx fuel) cfg (Node.fromRaw (loadIdx cfg.root)).children
        (runEnd keys value - runStart keys value) (runStart keys value) (runEnd keys value - runStart keys value)
        (pageOutcome cfg keys value)
      return some merged := by
  have hans := search.run_answers (Cut.of_sorted (fun key : Key => key) value hs)
  simp only [searchInline, hv, hk, ok_bind]
  cases hrun : search.run (fun key => compare key value) keys with
  | error place =>
    rw [hrun] at hans
    exact absurd (compare_eq_iff_eq.mpr rfl) (hans.not_eq hmem)
  | ok found =>
    rw [hrun] at hans
    obtain ⟨hfound, heq⟩ := hans
    obtain ⟨hlow, hup⟩ := (getElem_eq_iff hs hfound).mp (compare_eq_iff_eq.mp heq)
    have hright := scanRight_eq hs (keys.length - 1 - found) hlow (Nat.le_of_lt hup) (by omega)
    simp only [scanLeft_eq hs (Nat.le_succ_of_le hlow) hup, hright, ok_bind]
    rfl

end Page

/-! ## The children -/

/-- The panic of a search that finds nothing in a child it visits. -/
def unexpectedNone : Panic := .message "Expected to find Some result, but got None"

section Children

variable {searchChild : SearchCfg → Outcome (Option SearchOutcome)} {cfg : SearchCfg}
  {children : List ChildFilePageOffset}

/-- When every child that may be visited is found in, whatever is left of the limit, the loop ends. -/
theorem visitChildren_ok {left cur results : Nat} {merged : SearchOutcome} (hc : cur + left ≤ children.length)
    (h : ∀ i child, cur ≤ i → i < cur + left → children[i]? = some child →
      ∀ limit, ∃ r, searchChild (cfg.child child limit) = .ok (some r)) :
    ∃ m, visitChildren searchChild cfg children left cur results merged = .ok m := by
  induction left generalizing cur results merged with
  | zero => exact ⟨merged, rfl⟩
  | succ left ih =>
    have hcur : cur < children.length := by omega
    unfold visitChildren
    split
    · obtain ⟨r, hr⟩ := h cur children[cur] (Nat.le_refl _) (by omega) (List.getElem?_eq_getElem hcur)
        (cfg.limit - results)
      simp only [index_of_lt hcur, ok_bind, hr]
      exact ih (by omega) fun i child hi hi' => h i child (by omega) (by omega)
    · exact ⟨merged, rfl⟩

/-- When the limit is used up already, the loop ends at once. -/
theorem visitChildren_limit {left cur results : Nat} {merged : SearchOutcome} (h : cfg.limit ≤ results) :
    visitChildren searchChild cfg children left cur results merged = .ok merged := by
  cases left with
  | zero => rfl
  | succ left =>
    rw [visitChildren, if_neg (Nat.not_lt.mpr h)]
    rfl

/-- A child that is found in lets the loop end when all behind it are found in too. -/
theorem visitChildren_found {left cur results : Nat} {child : ChildFilePageOffset} {r merged : SearchOutcome}
    (hget : children[cur]? = some child) (hr : searchChild (cfg.child child (cfg.limit - results)) = .ok (some r))
    (hc : cur + 1 + left ≤ children.length)
    (h : ∀ i child, cur + 1 ≤ i → i < cur + 1 + left → children[i]? = some child →
      ∀ limit, ∃ r, searchChild (cfg.child child limit) = .ok (some r)) :
    ∃ m, visitChildren searchChild cfg children (left + 1) cur results merged = .ok m := by
  obtain ⟨hcur, hget⟩ := List.getElem?_eq_some_iff.mp hget
  unfold visitChildren
  split
  · simp only [index_of_lt hcur, ok_bind, hget, hr]
    exact visitChildren_ok hc h
  · exact ⟨merged, rfl⟩

/-- A child that is visited and not found in makes the loop panic. -/
theorem visitChildren_error {left cur results : Nat} {child : ChildFilePageOffset} {merged : SearchOutcome}
    (hroom : results < cfg.limit) (hget : children[cur]? = some child)
    (hfail : searchChild (cfg.child child (cfg.limit - results)) = .ok none ∨
      searchChild (cfg.child child (cfg.limit - results)) = .error unexpectedNone) :
    visitChildren searchChild cfg children (left + 1) cur results merged = .error unexpectedNone := by
  obtain ⟨hcur, hget⟩ := List.getElem?_eq_some_iff.mp hget
  rw [visitChildren, if_pos hroom]
  rcases hfail with hfail | hfail
  · simp only [index_of_lt hcur, ok_bind, hget, hfail]
    rfl
  · simp only [index_of_lt hcur, ok_bind, hget, hfail, error_bind]

end Children

section VisitRun

variable {searchChild : SearchCfg → Outcome (Option SearchOutcome)} {cfg : SearchCfg}
  {children : List ChildFilePageOffset}
  {keys : List Key} {value : Key} (hs : keys.Pairwise (· ≤ ·)) (hmem : value ∈ keys)
    (hlen : keys.length ≤ children.length)
include hs hmem hlen

/-- With every child of the run found in, the loop over the run ends when the run starts at the first key, or uses up the
limit, or the child before it is found in. -/
theorem visitRun_ok (merged : SearchOutcome)
    (hrun : ∀ i child, below keys value ≤ i → i < runEnd keys value → children[i]? = some child →
      ∀ limit, ∃ r, searchChild (cfg.child child limit) = .ok (some r))
    (hcase : below keys value = 0 ∨ cfg.limit ≤ runEnd keys value - runStart keys value ∨
      ∃ child, children[runStart keys value]? = some child ∧
        ∃ r, searchChild (cfg.child child (cfg.limit - (runEnd keys value - runStart keys value))) = .ok (some r)) :
    ∃ m, visitChildren searchChild cfg children (runEnd keys value - runStart keys value) (runStart keys value)
      (runEnd keys value - runStart keys value) merged = .ok m := by
  obtain ⟨hbelow, hlast, hup, hle⟩ := run_bounds hs hmem
  have hstart : runStart keys value = below keys value - 1 := rfl
  rcases Nat.eq_zero_or_pos (below keys value) with hzero | hpos
  · -- the run starts at the first key, and so do the children visited
    exact visitChildren_ok (by omega) fun i child _ hi hget limit => hrun i child (by omega) (by omega) hget limit
  · rcases hcase with hzero | hused | ⟨child, hget, r, hr⟩
    · omega
    · exact ⟨merged, visitChildren_limit hused⟩
    · -- the child before the run is visited first
      obtain ⟨left, hleft⟩ : ∃ left, runEnd keys value - runStart keys value = left + 1 :=
        ⟨runEnd keys value - below keys value, by omega⟩
      rw [hleft] at hr ⊢
      exact visitChildren_found hget hr (by omega) fun i child _ hi hget limit =>
        hrun i child (by omega) (by omega) hget limit

/-- The loop over a run with a child before it that is visited and not found in panics. -/
theorem visitRun_error (merged : SearchOutcome) (hpos : below keys value ≠ 0)
    (hroom : ¬cfg.limit ≤ runEnd keys value - runStart keys value)
    (hfail : ∀ child, children[runStart keys value]? = some child →
      searchChild (cfg.child child (cfg.limit - (runEnd keys value - runStart keys value))) = .ok none ∨
        searchChild (cfg.child child (cfg.limit - (runEnd keys value - runStart keys value))) = .error unexpectedNone) :
    visitChildren searchChild cfg children (runEnd keys value - runStart keys value) (runStart keys value)
      (runEnd keys value - runStart keys value) merged = .error unexpectedNone := by
  obtain ⟨hbelow, hlast, hup, hle⟩ := run_bounds hs hmem
  have hstart : runStart keys value = below keys value - 1 := rfl
  have hcur : runStart keys value < children.length := by omega
  obtain ⟨left, hleft⟩ : ∃ left, runEnd keys value - runStart keys value = left + 1 :=
    ⟨runEnd keys value - below keys value, by omega⟩
  have hget := List.getElem?_eq_getElem hcur
  have hfail := hfail _ hget
  rw [hleft] at hfail hroom ⊢
  exact visitChildren_error (Nat.lt_of_not_le hroom) hget hfail

end VisitRun

/-! ## A search succeeds along one path -/

/-- The search succeeds: each page on the path has the value among its keys, until a page is a leaf, or its first
key is the value, or its run uses up the limit; from any other page the path goes on to the child before the
run. -/
inductive Finds (loadIdx : IdxKey → IdxPage) (value : Key) : SearchCfg → Prop
  | leaf {cfg : SearchCfg} {keys : List Key} (counted : countedKeys cfg.isRootLeaf (loadIdx cfg.root) = .ok keys)
      (mem : value ∈ keys) (isLeaf : cfg.isRootLeaf = true) : Finds loadIdx value cfg
  | firstKey {cfg : SearchCfg} {keys : List Key} (counted : countedKeys cfg.isRootLeaf (loadIdx cfg.root) = .ok keys)
      (mem : value ∈ keys) (first : below keys value = 0) : Finds loadIdx value cfg
  | limit {cfg : SearchCfg} {keys : List Key} (counted : countedKeys cfg.isRootLeaf (loadIdx cfg.root) = .ok keys)
      (mem : value ∈ keys) (used : cfg.limit ≤ runEnd keys value - runStart keys value) : Finds loadIdx value cfg
  | before {cfg : SearchCfg} {keys : List Key} {child : ChildFilePageOffset}
      (counted : countedKeys cfg.isRootLeaf (loadIdx cfg.root) = .ok keys) (mem : value ∈ keys)
      (atStart : (Node.fromRaw (loadIdx cfg.root)).children[runStart keys value]? = some child)
      (found : Finds loadIdx value (cfg.child child (cfg.limit - (runEnd keys value - runStart keys value)))) :
      Finds loadIdx value cfg

/-- What `Finds` says of a page whose counted keys are known. -/
theorem finds_iff {loadIdx : IdxKey → IdxPage} {value : Key} {cfg : SearchCfg} {keys : List Key}
    (hk : countedKeys cfg.isRootLeaf (loadIdx cfg.root) = .ok keys) : Finds loadIdx value cfg ↔ value ∈ keys ∧
      (cfg.isRootLeaf = true ∨ below keys value = 0 ∨ cfg.limit ≤ runEnd keys value - runStart keys value ∨
        ∃ child, (Node.fromRaw (loadIdx cfg.root)).children[runStart keys value]? = some child ∧
          Finds loadIdx value (cfg.child child (cfg.limit - (runEnd keys value - runStart keys value)))) := by
  constructor
  · intro h
    cases h with
    | leaf counted mem isLeaf =>
      rw [hk] at counted
      cases counted
      exact ⟨mem, Or.inl isLeaf⟩
    | firstKey counted mem first =>
      rw [hk] at counted
      cases counted
      exact ⟨mem, Or.inr (Or.inl first)⟩
    | limit counted mem used =>
      rw [hk] at counted
      cases counted
      exact ⟨mem, Or.inr (Or.inr (Or.inl used))⟩
    | before counted mem atStart found =>
      rw [hk] at counted
      cases counted
      exact ⟨mem, Or.inr (Or.inr (Or.inr ⟨_, atStart, found⟩))⟩
  · rintro ⟨mem, isLeaf | first | used | ⟨child, atStart, found⟩⟩
    · exact .leaf hk mem isLeaf
    · exact .firstKey hk mem first
    · exact .limit hk mem used
    · exact .before hk mem atStart found

/-- A tree whose least key is the value is one in which the search succeeds: its first key is the value. -/
theorem IsTree.finds_least {loadIdx : IdxKey → IdxPage} {height : Nat} {cfg : SearchCfg} {leafKeys : List Key}
    {value : Key} (ht : IsTree loadIdx height cfg.isRootLeaf cfg.root leafKeys) (hmem : value ∈ leafKeys)
    (hleast : ∀ key ∈ leafKeys, value ≤ key) : Finds loadIdx value cfg := by
  generalize hleaf : cfg.isRootLeaf = isRootLeaf at ht
  generalize hroot : cfg.root = root at ht
  cases ht with
  | leaf counted sorted =>
    subst hroot
    exact .leaf (hleaf ▸ counted) hmem hleaf
  | @branch height _ keys sub counted sorted children least upper =>
    subst hroot
    obtain ⟨i, hi, hvi⟩ := List.mem_flatMap.mp hmem
    rw [List.mem_range] at hi
    have hpos : 0 < keys.length := by omega
    have hfirst : keys[0] = value := by
      refine le_antisymm ?_ (hleast _ (List.mem_flatMap.mpr ⟨0, List.mem_range.mpr hpos, (least 0 hpos).1⟩))
      refine le_trans ?_ ((least i hi).2 value hvi)
      rcases Nat.eq_zero_or_pos i with rfl | hlt
      · exact le_refl _
      · exact List.pairwise_iff_getElem.mp sorted 0 i hpos hi hlt
    have hrun := (getElem_eq_iff sorted hpos).mp hfirst
    exact .firstKey (hleaf ▸ counted) (hfirst ▸ List.getElem_mem hpos) (by omega)

/-- The keys of a page are keys of the leaves below it. -/
theorem IsTree.mem_of_counted {loadIdx : IdxKey → IdxPage} {height : Nat} {isRootLeaf : Bool} {root : IdxKey}
    {leafKeys keys : List Key} {value : Key} (ht : IsTree loadIdx height isRootLeaf root leafKeys)
    (hk : countedKeys isRootLeaf (loadIdx root) = .ok keys) (hmem : value ∈ keys) : value ∈ leafKeys := by
  cases ht with
  | leaf counted sorted =>
    rw [hk] at counted
    cases counted
    exact hmem
  | branch counted sorted children least upper =>
    rw [hk] at counted
    cases counted
    obtain ⟨i, hi, rfl⟩ := List.getElem_of_mem hmem
    exact List.mem_flatMap.mpr ⟨i, List.mem_range.mpr hi, (least i hi).1⟩

/-- A page of a tree counts no more keys than it has children. -/
theorem length_le_children {page : IdxPage} {keys : List Key} (hk : countedKeys false page = .ok keys) :
    keys.length ≤ (Node.fromRaw page).children.length := by
  simp only [countedKeys, slicePrefix, Bool.false_eq_true, if_false] at hk
  split at hk
  · rw [← Except.ok.inj hk, List.length_take]
    exact Nat.le_trans (Nat.min_le_right _ _) (by simp only [Node.fromRaw, List.length_map, Nat.le_refl])
  · nomatch hk

/-- The counted keys of a page of a tree are there, and sorted. -/
theorem IsTree.counted {loadIdx : IdxKey → IdxPage} {height : Nat} {isRootLeaf : Bool} {root : IdxKey}
    {leafKeys : List Key} (ht : IsTree loadIdx height isRootLeaf root leafKeys) :
    ∃ keys, countedKeys isRootLeaf (loadIdx root) = .ok keys ∧ keys.Pairwise (· ≤ ·) := by
  cases ht with
  | leaf counted sorted => exact ⟨_, counted, sorted⟩
  | branch counted sorted children least upper => exact ⟨_, counted, sorted⟩

/-- The search from a page ends as the path of `Finds` says: with a result along it, and else with nothing or the
panic. -/
structure EndsByPath (search : BinarySearch) (loadIdx : IdxKey → IdxPage) (value : Key) (fuel : Nat)
    (cfg : SearchCfg) : Prop where
  found : Finds loadIdx value cfg → ∃ r, searchInline search loadIdx fuel cfg = .ok (some r)
  failed : ¬Finds loadIdx value cfg →
    searchInline search loadIdx fuel cfg = .ok none ∨ searchInline search loadIdx fuel cfg = .error unexpectedNone

/-- How a search ends in a page, with a key equal to the value, whose children it ends in by the path, and finds in
along the run: it succeeds along the path, and panics off it. -/
theorem branch_ends {search : BinarySearch} {loadIdx : IdxKey → IdxPage} {fuel : Nat} {cfg : SearchCfg}
    {keys : List Key} {value : Key} (hbranch : cfg.isRootLeaf = false) (hv : padded cfg.value = .ok value)
    (hk : countedKeys cfg.isRootLeaf (loadIdx cfg.root) = .ok keys) (hs : keys.Pairwise (· ≤ ·))
    (hmem : value ∈ keys)
    (hchild : ∀ i child, i < keys.length → (Node.fromRaw (loadIdx cfg.root)).children[i]? = some child → ∀ limit,
      EndsByPath search loadIdx value fuel (cfg.child child limit))
    (hrun : ∀ i child, below keys value ≤ i → i < runEnd keys value →
      (Node.fromRaw (loadIdx cfg.root)).children[i]? = some child →
        ∀ limit, Finds loadIdx value (cfg.child child limit)) :
    (Finds loadIdx value cfg → ∃ r, searchInline search loadIdx (fuel + 1) cfg = .ok (some r)) ∧
    (¬Finds loadIdx value cfg → searchInline search loadIdx (fuel + 1) cfg = .error unexpectedNone) := by
  obtain ⟨hbelow, hlast, -, -⟩ := run_bounds hs hmem
  have hlen := length_le_children (hbranch ▸ hk)
  have hstart : runStart keys value < keys.length := Nat.lt_of_le_of_lt (Nat.sub_le _ _) hbelow
  have hnotLeaf : ¬cfg.isRootLeaf = true := by simp [hbranch]
  rw [searchInline_hit hv hk hs hmem, if_neg hnotLeaf]
  constructor
  · intro hf
    have hcase := ((finds_iff hk).mp hf).2.resolve_left hnotLeaf
    have hvisit := visitRun_ok hs hmem hlen (pageOutcome cfg keys value)
      (fun i child hi hi' hget limit => (hchild i child (by omega) hget limit).found (hrun i child hi hi' hget limit))
      (hcase.imp_right (Or.imp_right fun ⟨child, hget, hfound⟩ => ⟨child, hget,
        (hchild _ child hstart hget _).found hfound⟩))
    obtain ⟨merged, hvisit⟩ := hvisit
    exact ⟨merged, by rw [hvisit]; rfl⟩
  · intro hnot
    have hcase := mt (finds_iff hk).mpr hnot
    simp only [hmem, hbranch, true_and, not_or, Bool.false_eq_true, false_or, not_exists, not_and] at hcase
    obtain ⟨hpos, hroom, hnone⟩ := hcase
    have hvisit := visitRun_error hs hmem hlen (pageOutcome cfg keys value) hpos hroom fun child hget =>
      (hchild _ child hstart hget _).failed (hnone child hget)
    rw [hvisit]
    rfl

/-- How a search in a tree ends, with fuel for its height: it finds nothing when the value is not among the keys of
the root page, it succeeds along the path of `Finds`, and otherwise it visits a child that it finds nothing in, and
panics. -/
theorem searchInline_spec (search : BinarySearch) {loadIdx : IdxKey → IdxPage} {height fuel : Nat} {cfg : SearchCfg}
    {leafKeys keys : List Key} {value : Key} (ht : IsTree loadIdx height cfg.isRootLeaf cfg.root leafKeys)
    (hfuel : height < fuel) (hv : padded cfg.value = .ok value)
    (hk : countedKeys cfg.isRootLeaf (loadIdx cfg.root) = .ok keys) :
    (value ∉ keys → searchInline search loadIdx fuel cfg = .ok none) ∧
    (Finds loadIdx value cfg → ∃ r, searchInline search loadIdx fuel cfg = .ok (some r)) ∧
    (value ∈ keys → ¬Finds loadIdx value cfg → searchInline search loadIdx fuel cfg = .error unexpectedNone) := by
  obtain ⟨fuel, rfl⟩ : ∃ n, fuel = n + 1 := ⟨fuel - 1, by omega⟩
  have hs : keys.Pairwise (· ≤ ·) := by
    obtain ⟨keys', hk', hs'⟩ := ht.counted
    rw [hk] at hk'
    cases hk'
    exact hs'
  refine ⟨fun hmem => searchInline_miss hv hk hs hmem, ?_⟩
  generalize hleaf : cfg.isRootLeaf = isRootLeaf at ht
  generalize hroot : cfg.root = root at ht
  induction ht generalizing cfg fuel keys with
  | leaf counted sorted =>
    refine ⟨fun hf => ?_, fun hmem hnot => absurd (.leaf hk hmem hleaf) hnot⟩
    have hmem := ((finds_iff hk).mp hf).1
    exact ⟨_, by rw [searchInline_hit hv hk hs hmem, if_pos hleaf]⟩
  | @branch height root keys' sub counted sorted children least upper ih =>
    subst hroot
    have hkeys : keys' = keys := by
      rw [hleaf, counted] at hk
      exact Except.ok.inj hk
    subst hkeys
    have hchild : ∀ i child, i < keys'.length → (Node.fromRaw (loadIdx cfg.root)).children[i]? = some child →
      ∀ limit,
        EndsByPath search loadIdx value fuel (cfg.child child limit) := by
      intro i child hi hget limit
      obtain ⟨fuel, rfl⟩ : ∃ n, fuel = n + 1 := ⟨fuel - 1, by omega⟩
      obtain ⟨childKeys, hck, hcs⟩ := (children i child hi hget).counted
      have hspec := @ih i child hi hget (cfg.child child limit) childKeys hv hck fuel (by omega) hcs rfl rfl
      refine ⟨hspec.1, fun hnot => ?_⟩
      by_cases hmem : value ∈ childKeys
      · exact Or.inr (hspec.2 hmem hnot)
      · exact Or.inl (searchInline_miss hv hck hcs hmem)
    -- a child of the run has the value as its least key
    have hrun : ∀ i child, below keys' value ≤ i → i < runEnd keys' value →
        (Node.fromRaw (loadIdx cfg.root)).children[i]? = some child →
          ∀ limit, Finds loadIdx value (cfg.child child limit) := by
      intro i child hi hi' hget limit
      have hup : runEnd keys' value ≤ upTo keys' value := Nat.min_le_left _ _
      have hlast : runEnd keys' value ≤ keys'.length - 1 := Nat.min_le_right _ _
      have hi'' : i < keys'.length := by omega
      have heq := (getElem_eq_iff hs hi'').mpr ⟨hi, by omega⟩
      obtain ⟨hin, hleast⟩ := least i hi''
      rw [heq] at hin hleast
      exact IsTree.finds_least (children i child hi'' hget) hin hleast
    refine ⟨fun hf => ?_, fun hmem => (branch_ends hleaf hv hk hs hmem hchild hrun).2⟩
    exact (branch_ends hleaf hv hk hs ((finds_iff hk).mp hf).1 hchild hrun).1 hf

/-- A search among inline keys is the recursive one. -/
theorem btreeSearch_inline (search : BinarySearch) (loadIdx : IdxKey → IdxPage) (fuel : Nat) {cfg : SearchCfg}
    (hinline : cfg.isBlobs = false) : btreeSearch search loadIdx fuel cfg = searchInline search loadIdx fuel cfg := by
  rw [btreeSearch, hinline]
  rfl

/-- When a search meets its purpose. In a tree of inline keys, with any fuel above the tree's height, the search
ends with a result that tells whether the padded value is a key of some leaf, exactly when it is none or the search
succeeds along the path of `Finds`. -/
theorem btreeSearch_iff (search : BinarySearch) {loadIdx : IdxKey → IdxPage} {height fuel : Nat} {cfg : SearchCfg}
    {leafKeys : List Key} {value : Key} (ht : IsTree loadIdx height cfg.isRootLeaf cfg.root leafKeys)
    (hfuel : height < fuel) (hinline : cfg.isBlobs = false) (hv : padded cfg.value = .ok value) :
    (∃ r, btreeSearch search loadIdx fuel cfg = .ok r ∧ (r.isSome ↔ value ∈ leafKeys)) ↔
      (value ∉ leafKeys ∨ Finds loadIdx value cfg) := by
  obtain ⟨keys, hk, -⟩ := ht.counted
  obtain ⟨hmiss, hfind, hpanic⟩ := searchInline_spec search ht hfuel hv hk
  rw [btreeSearch_inline search loadIdx fuel hinline]
  constructor
  · rintro ⟨r, hr, hiff⟩
    by_cases hleaf : value ∈ leafKeys
    · by_cases hmem : value ∈ keys
      · by_contra hnot
        rw [hpanic hmem (fun hf => hnot (Or.inr hf))] at hr
        cases hr
      · rw [hmiss hmem] at hr
        cases hr
        exact absurd (hiff.mpr hleaf) (by simp)
    · exact Or.inl hleaf
  · intro h
    by_cases hleaf : value ∈ leafKeys
    · obtain ⟨r, hr⟩ := hfind (h.resolve_left (fun hnot => hnot hleaf))
      exact ⟨some r, hr, by simp [hleaf]⟩
    · exact ⟨none, hmiss (fun hmem => hleaf (ht.mem_of_counted hk hmem)), by simp [hleaf]⟩

/-- When a search does not hit its panic: in a tree of inline keys, with any fuel above the tree's height, no child
that is visited is found empty-handed exactly when the padded value is not among the keys of the root page, so that
no child is visited, or the search succeeds along the path of `Finds`. -/
theorem btreeSearch_no_panic_iff (search : BinarySearch) {loadIdx : IdxKey → IdxPage} {height fuel : Nat}
    {cfg : SearchCfg} {leafKeys : List Key} {value : Key}
    (ht : IsTree loadIdx height cfg.isRootLeaf cfg.root leafKeys)
    (hfuel : height < fuel) (hinline : cfg.isBlobs = false) (hv : padded cfg.value = .ok value) :
    btreeSearch search loadIdx fuel cfg ≠ .error unexpectedNone ↔
      ((∃ keys, countedKeys cfg.isRootLeaf (loadIdx cfg.root) = .ok keys ∧ value ∉ keys) ∨
        Finds loadIdx value cfg) := by
  obtain ⟨keys, hk, -⟩ := ht.counted
  obtain ⟨hmiss, hfind, hpanic⟩ := searchInline_spec search ht hfuel hv hk
  rw [btreeSearch_inline search loadIdx fuel hinline]
  constructor
  · intro hreturns
    by_cases hmem : value ∈ keys
    · by_contra hnot
      exact hreturns (hpanic hmem fun hf => hnot (Or.inr hf))
    · exact Or.inl ⟨keys, hk, hmem⟩
  · rintro (⟨keys', hk', hmem⟩ | hf)
    · rw [hk] at hk'
      cases hk'
      rw [hmiss hmem]
      exact nofun
    · obtain ⟨r, hr⟩ := hfind hf
      rw [hr]
      exact nofun

/-! ### A root with the keys 1 and 5 over leaves with the keys 1, 2, 3 and 5, 6 -/

/-- The key that starts with a byte and goes on with zeros. -/
def byteKey (byte : U8) : Key := { inline := byte :: List.replicate 15 0, length_eq := rfl }

/-- A leaf page of such keys. -/
def leafPage (keys : List U8) : IdxPage where
  bytes place :=
    if place.val = 0 then BitVec.ofNat 8 keys.length
    else if 64 ≤ place.val ∧ place.val % 16 = 0 then keys.getD ((place.val - 64) / 16) 0
    else 0

/-- A branch page of such keys over leaves. -/
def branchPage (keys leaves : List U8) : IdxPage where
  bytes place :=
    if place.val = 2696 then BitVec.ofNat 8 keys.length
    else if place.val < 2688 ∧ place.val % 16 = 0 then keys.getD (place.val / 16) 0
    else if 2704 ≤ place.val ∧ place.val % 8 = 0 then leaves.getD ((place.val - 2704) / 8) 0
    else if 2704 ≤ place.val ∧ place.val % 8 = 7 then 0x80
    else 0

/-- The pages of the tree. -/
def examplePages (key : IdxKey) : IdxPage :=
  match key.page.toNat with
  | 0 => branchPage [1, 5] [1, 2]
  | 1 => leafPage [1, 2, 3]
  | _ => leafPage [5, 6]

/-- The root of the tree. -/
def exampleRoot : IdxKey := { index := 0, db := 0, page := 0 }

/-- The search for a byte in the tree. -/
def exampleCfg (byte : U8) : SearchCfg :=
  { value := [byte], root := exampleRoot, isRootLeaf := false, isBlobs := false, limit := 10 }

/-- The keys of the leaves below the two children of the root. -/
def exampleKeys : Nat → List Key
  | 0 => [byteKey 1, byteKey 2, byteKey 3]
  | _ => [byteKey 5, byteKey 6]

/-- The two children of the root. -/
def exampleChild (i : Nat) : ChildFilePageOffset := ⟨BitVec.ofNat 64 (i + 1) ||| ChildFilePageOffset.leafFlag⟩

theorem isTree_exampleChild : ∀ i < 2, IsTree examplePages 0 (exampleChild i).isLeaf
    { exampleRoot with page := (exampleChild i).intoInner } (exampleKeys i) := by
  have hleaf : ∀ i < 2, (exampleChild i).isLeaf = true ∧
      countedKeys true (examplePages { exampleRoot with page := (exampleChild i).intoInner }) = .ok (exampleKeys i) ∧
      (exampleKeys i).Pairwise (· ≤ ·) := by decide +kernel
  intro i hi
  obtain ⟨hflag, hcounted, hsorted⟩ := hleaf i hi
  rw [hflag]
  exact IsTree.leaf hcounted hsorted

theorem isTree_examplePages :
    IsTree examplePages 1 false exampleRoot [byteKey 1, byteKey 2, byteKey 3, byteKey 5, byteKey 6] := by
  have hroot : countedKeys false (examplePages exampleRoot) = .ok [byteKey 1, byteKey 5] := by decide +kernel
  have hchild : ∀ i < 2, (Node.fromRaw (examplePages exampleRoot)).children[i]? = some (exampleChild i) := by
    decide +kernel
  refine @IsTree.branch _ _ _ _ exampleKeys hroot (by decide) ?_ (by decide) ?_
  · intro i child hi hget
    obtain rfl : exampleChild i = child := Option.some.inj ((hchild i hi).symm.trans hget)
    exact isTree_exampleChild i hi
  · intro i hi
    obtain rfl : i = 0 := by simpa using hi
    decide +revert

/-- The path of the first key of the root ends at the root. -/
theorem finds_first_key : Finds examplePages (byteKey 1) (exampleCfg 1) :=
  have hroot : countedKeys false (examplePages exampleRoot) = .ok [byteKey 1, byteKey 5] := by decide +kernel
  .firstKey hroot (by decide) (by decide)

/-- The first key of the root is looked for and found. -/
theorem btreeSearch_first_key : ∃ r, btreeSearch .halving examplePages 2 (exampleCfg 1) = .ok r ∧
    (r.isSome ↔ byteKey 1 ∈ [byteKey 1, byteKey 2, byteKey 3, byteKey 5, byteKey 6]) :=
  (btreeSearch_iff .halving isTree_examplePages (by decide) rfl (by decide)).mpr (Or.inr finds_first_key)

/-- The search for it does not panic. -/
theorem btreeSearch_first_key_no_panic : btreeSearch .halving examplePages 2 (exampleCfg 1) ≠ .error unexpectedNone :=
  (btreeSearch_no_panic_iff .halving isTree_examplePages (by decide) rfl (by decide)).mpr (Or.inr finds_first_key)

/-- The search for the second key of the root visits the first leaf too, which lacks that key, and panics. -/
theorem btreeSearch_panics_second_key :
    IsTree examplePages 1 (exampleCfg 5).isRootLeaf (exampleCfg 5).root
        [byteKey 1, byteKey 2, byteKey 3, byteKey 5, byteKey 6] ∧
      padded (exampleCfg 5).value = .ok (byteKey 5) ∧
      btreeSearch .halving examplePages 2 (exampleCfg 5) = .error unexpectedNone :=
  ⟨isTree_examplePages, by decide, by decide +kernel⟩

/-- A key of the first leaf that is no key of the root is not found. -/
theorem btreeSearch_misses_leaf_key :
    IsTree examplePages 1 (exampleCfg 2).isRootLeaf (exampleCfg 2).root
        [byteKey 1, byteKey 2, byteKey 3, byteKey 5, byteKey 6] ∧
      padded (exampleCfg 2).value = .ok (byteKey 2) ∧
      byteKey 2 ∈ [byteKey 1, byteKey 2, byteKey 3, byteKey 5, byteKey 6] ∧
      btreeSearch .halving examplePages 2 (exampleCfg 2) = .ok none :=
  ⟨isTree_examplePages, by decide, by decide, by decide +kernel⟩

end Kobzar.BTree
