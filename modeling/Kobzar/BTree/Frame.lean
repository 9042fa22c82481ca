import Kobzar.BTree.Lookup

/-!
# What a search depends on

A search reads the pages below its root and no others. What it returns depends on these alone, and not on which of
several equal keys the binary search of a page lands on (`btreeSearch_depends_on_pages`).
-/

namespace Kobzar.BTree

open Search

/-- A finite tree of pages of some height, each with its counted keys sorted. The keys need not tell where others are. -/
inductive SortedPages (loadIdx : IdxKey → IdxPage) : Nat → Bool → IdxKey → Prop
  | leaf {height : Nat} {root : IdxKey} {keys : List Key} (counted : countedKeys true (loadIdx root) = .ok keys)
      (sorted : keys.Pairwise (· ≤ ·)) : SortedPages loadIdx height true root
  | branch {height : Nat} {root : IdxKey} {keys : List Key} (counted : countedKeys false (loadIdx root) = .ok keys)
      (sorted : keys.Pairwise (· ≤ ·))
      (children : ∀ i child, i < keys.length → (Node.fromRaw (loadIdx root)).children[i]? = some child →
        SortedPages loadIdx height child.isLeaf { root with page := child.intoInner }) :
      SortedPages loadIdx (height + 1) false root

/-- The pages of a tree are sorted. -/
theorem IsTree.sortedPages {loadIdx : IdxKey → IdxPage} {height : Nat} {isRootLeaf : Bool} {root : IdxKey}
    {leafKeys : List Key}
    (h : IsTree loadIdx height isRootLeaf root leafKeys) : SortedPages loadIdx height isRootLeaf root := by
  induction h with
  | leaf counted sorted => exact .leaf counted sorted
  | branch counted sorted children least upper ih => exact .branch counted sorted ih

/-- A page below a root: the root itself, or one below the child of a counted key. -/
inductive PageBelow (loadIdx : IdxKey → IdxPage) : Bool → IdxKey → IdxKey → Prop
  | root {isRootLeaf : Bool} {root : IdxKey} : PageBelow loadIdx isRootLeaf root root
  | child {root page : IdxKey} {keys : List Key} {i : Nat} {child : ChildFilePageOffset}
      (counted : countedKeys false (loadIdx root) = .ok keys) (hi : i < keys.length)
      (hget : (Node.fromRaw (loadIdx root)).children[i]? = some child)
      (below : PageBelow loadIdx child.isLeaf { root with page := child.intoInner } page) :
        PageBelow loadIdx false root page

/-- The loop over the children depends on the searches in those that it may visit. -/
theorem visitChildren_congr {searchChild searchChild' : SearchCfg → Outcome (Option SearchOutcome)} {cfg : SearchCfg}
    {children : List ChildFilePageOffset} {left cur results : Nat} {merged : SearchOutcome}
    (h : ∀ i child, cur ≤ i → i < cur + left → children[i]? = some child → ∀ limit,
      searchChild (cfg.child child limit) = searchChild' (cfg.child child limit)) :
    visitChildren searchChild cfg children left cur results merged =
      visitChildren searchChild' cfg children left cur results merged := by
  induction left generalizing cur results merged with
  | zero => rfl
  | succ left ih =>
    unfold visitChildren
    split
    · rcases Nat.lt_or_ge cur children.length with hlt | hge
      · have hcur := h cur children[cur] (Nat.le_refl _) (by omega) (List.getElem?_eq_getElem hlt) (cfg.limit - results)
        simp only [index_of_lt hlt, ok_bind, hcur]
        rcases searchChild' (cfg.child children[cur] (cfg.limit - results)) with e | _ | result
        · rfl
        · rfl
        · exact ih fun i child hi hi' => h i child (by omega) (by omega)
      · simp only [index_of_le hge, error_bind]
    · rfl

/-- A computation in two parts does not end with an error that neither part ends with. -/
theorem bind_ne_error {ε α β : Type} {x : Except ε α} {f : α → Except ε β} {e : ε} (hx : x ≠ .error e)
    (hf : ∀ a, f a ≠ .error e) : (x >>= f) ≠ .error e := by
  cases x with
  | error e' =>
    intro h
    cases h
    exact hx rfl
  | ok a => exact hf a

/-- The loop over the children ends when the searches in those that it may visit do. -/
theorem visitChildren_terminates {searchChild : SearchCfg → Outcome (Option SearchOutcome)} {cfg : SearchCfg}
    {children : List ChildFilePageOffset} {left cur results : Nat} {merged : SearchOutcome}
    (h : ∀ i child, cur ≤ i → i < cur + left → children[i]? = some child → ∀ limit,
      searchChild (cfg.child child limit) ≠ .error .outOfFuel) :
    visitChildren searchChild cfg children left cur results merged ≠ .error .outOfFuel := by
  induction left generalizing cur results merged with
  | zero => exact nofun
  | succ left ih =>
    unfold visitChildren
    split
    · rcases Nat.lt_or_ge cur children.length with hlt | hge
      · have hcur := h cur children[cur] (Nat.le_refl _) (by omega) (List.getElem?_eq_getElem hlt) (cfg.limit - results)
        simp only [index_of_lt hlt, ok_bind]
        refine bind_ne_error hcur ?_
        rintro (_ | result)
        · exact nofun
        · exact ih fun i child hi hi' => h i child (by omega) (by omega)
      · simp only [index_of_le hge, error_bind]
        exact nofun
    · exact nofun

/-- The children that a search in a page may visit are those of counted keys. -/
theorem lt_length_of_visited {keys : List Key} {value : Key} (hs : keys.Pairwise (· ≤ ·)) (hmem : value ∈ keys)
    {i : Nat} (hi : i < runStart keys value + (runEnd keys value - runStart keys value)) : i < keys.length := by
  obtain ⟨hbelow, hlast, -, hle⟩ := run_bounds hs hmem
  have hstart : runStart keys value ≤ below keys value := Nat.sub_le _ _
  omega

section Search

variable {loadIdx loadIdx' : IdxKey → IdxPage} {height fuel fuel' : Nat} {cfg : SearchCfg} {value : Key}
  (hv : padded cfg.value = .ok value) (ht : SortedPages loadIdx height cfg.isRootLeaf cfg.root)
include hv ht

/-- Searches over pages that are the same below the root end in the same way. -/
theorem searchInline_congr (search search' : BinarySearch)
    (hsame : ∀ page, PageBelow loadIdx cfg.isRootLeaf cfg.root page → loadIdx' page = loadIdx page)
    (hfuel : height < fuel)
    (hfuel' : height < fuel') : searchInline search loadIdx fuel cfg = searchInline search' loadIdx' fuel' cfg := by
  generalize hleaf : cfg.isRootLeaf = isRootLeaf at ht
  generalize hroot : cfg.root = root at ht
  induction ht generalizing cfg fuel fuel' with
  | @leaf height root keys counted sorted =>
    subst hroot
    obtain ⟨fuel, rfl⟩ : ∃ n, fuel = n + 1 := ⟨fuel - 1, by omega⟩
    obtain ⟨fuel', rfl⟩ : ∃ n, fuel' = n + 1 := ⟨fuel' - 1, by omega⟩
    have hk : countedKeys cfg.isRootLeaf (loadIdx cfg.root) = .ok keys := hleaf ▸ counted
    have hk' : countedKeys cfg.isRootLeaf (loadIdx' cfg.root) = .ok keys := by rw [hsame _ .root, hk]
    by_cases hmem : value ∈ keys
    · rw [searchInline_hit hv hk sorted hmem, searchInline_hit hv hk' sorted hmem, if_pos hleaf, if_pos hleaf]
    · rw [searchInline_miss hv hk sorted hmem, searchInline_miss hv hk' sorted hmem]
  | @branch height root keys counted sorted children ih =>
    subst hroot
    obtain ⟨fuel, rfl⟩ : ∃ n, fuel = n + 1 := ⟨fuel - 1, by omega⟩
    obtain ⟨fuel', rfl⟩ : ∃ n, fuel' = n + 1 := ⟨fuel' - 1, by omega⟩
    have hk : countedKeys cfg.isRootLeaf (loadIdx cfg.root) = .ok keys := hleaf ▸ counted
    have hk' : countedKeys cfg.isRootLeaf (loadIdx' cfg.root) = .ok keys := by rw [hsame _ .root, hk]
    by_cases hmem : value ∈ keys
    · have hchild : ∀ i child, runStart keys value ≤ i →
        i < runStart keys value + (runEnd keys value - runStart keys value) →
          (Node.fromRaw (loadIdx cfg.root)).children[i]? = some child → ∀ limit,
            searchInline search loadIdx fuel (cfg.child child limit) =
              searchInline search' loadIdx' fuel' (cfg.child child limit) := by
        intro i child _ hi hget limit
        have hlt := lt_length_of_visited sorted hmem hi
        refine ih i child hlt hget hv (fun page hbelow => hsame page ?_) (by omega) (by omega) rfl rfl
        rw [hleaf]
        exact .child counted hlt hget hbelow
      rw [searchInline_hit hv hk sorted hmem, searchInline_hit hv hk' sorted hmem, hsame _ .root,
        visitChildren_congr hchild]
    · rw [searchInline_miss hv hk sorted hmem, searchInline_miss hv hk' sorted hmem]

/-- A search with fuel above the height ends. -/
theorem searchInline_terminates (search : BinarySearch) (hfuel : height < fuel) :
    searchInline search loadIdx fuel cfg ≠ .error .outOfFuel := by
  generalize hleaf : cfg.isRootLeaf = isRootLeaf at ht
  generalize hroot : cfg.root = root at ht
  induction ht generalizing cfg fuel with
  | @leaf height root keys counted sorted =>
    subst hroot
    obtain ⟨fuel, rfl⟩ : ∃ n, fuel = n + 1 := ⟨fuel - 1, by omega⟩
    have hk : countedKeys cfg.isRootLeaf (loadIdx cfg.root) = .ok keys := hleaf ▸ counted
    by_cases hmem : value ∈ keys
    · rw [searchInline_hit hv hk sorted hmem, if_pos hleaf]
      exact nofun
    · rw [searchInline_miss hv hk sorted hmem]
      exact nofun
  | @branch height root keys counted sorted children ih =>
    subst hroot
    obtain ⟨fuel, rfl⟩ : ∃ n, fuel = n + 1 := ⟨fuel - 1, by omega⟩
    have hk : countedKeys cfg.isRootLeaf (loadIdx cfg.root) = .ok keys := hleaf ▸ counted
    by_cases hmem : value ∈ keys
    · have hnotLeaf : ¬cfg.isRootLeaf = true := by simp [hleaf]
      rw [searchInline_hit hv hk sorted hmem, if_neg hnotLeaf]
      refine bind_ne_error (visitChildren_terminates ?_) fun merged => nofun
      intro i child _ hi hget limit
      exact ih i child (lt_length_of_visited sorted hmem hi) hget hv (by omega) rfl rfl
    · rw [searchInline_miss hv hk sorted hmem]
      exact nofun

end Search

/-- A search over a finite tree of sorted pages ends, and what it ends with is the same for every fuel above the
height, every binary search and all pages that are the same below the root. -/
theorem btreeSearch_depends_on_pages {loadIdx loadIdx' : IdxKey → IdxPage} {height fuel fuel' : Nat} {cfg : SearchCfg}
    (ht : SortedPages loadIdx height cfg.isRootLeaf cfg.root)
    (hsame : ∀ page, PageBelow loadIdx cfg.isRootLeaf cfg.root page → loadIdx' page = loadIdx page)
    (hfuel : height < fuel) (hfuel' : height < fuel') (search search' : BinarySearch) :
    btreeSearch search loadIdx fuel cfg ≠ .error .outOfFuel ∧
      btreeSearch search loadIdx fuel cfg = btreeSearch search' loadIdx' fuel' cfg := by
  unfold btreeSearch
  split
  · exact ⟨by simp, rfl⟩
  · rcases hv : padded cfg.value with e | value
    · obtain ⟨fuel, rfl⟩ : ∃ n, fuel = n + 1 := ⟨fuel - 1, by omega⟩
      obtain ⟨fuel', rfl⟩ : ∃ n, fuel' = n + 1 := ⟨fuel' - 1, by omega⟩
      have he : e ≠ .outOfFuel := by
        unfold padded at hv
        split at hv
        · cases hv
        · cases hv
          simp
      simp [searchInline, hv, he]
    · exact ⟨searchInline_terminates hv ht search hfuel, searchInline_congr hv ht search search' hsame hfuel hfuel'⟩

/-- The pages of the example with another page, of no tree, that was changed. -/
def otherPages (key : IdxKey) : IdxPage := if key.page = 9 then leafPage [] else examplePages key

/-- The search in the tree does not depend on it. -/
theorem btreeSearch_depends_on_pages_example :
    btreeSearch .halving examplePages 2 (exampleCfg 1) ≠ .error .outOfFuel ∧
    btreeSearch .halving examplePages 2 (exampleCfg 1) = btreeSearch .halving otherPages 7 (exampleCfg 1) := by
  refine btreeSearch_depends_on_pages isTree_examplePages.sortedPages ?_ (by decide) (by decide) .halving .halving
  intro page hbelow
  have hroot : countedKeys false (examplePages exampleRoot) = .ok [byteKey 1, byteKey 5] := by decide +kernel
  have hchild : ∀ i < 2, (Node.fromRaw (examplePages exampleRoot)).children[i]? = some (exampleChild i) := by
    decide +kernel
  have hleaf : ∀ i < 2, (exampleChild i).isLeaf = true ∧ (exampleChild i).intoInner ≠ 9 := by decide +kernel
  cases hbelow with
  | root => rfl
  | @child _ _ keys i child counted hi hget below =>
    cases hroot.symm.trans counted
    obtain rfl := Option.some.inj ((hchild i hi).symm.trans hget)
    rw [(hleaf i hi).1] at below
    cases below
    exact if_neg (hleaf i hi).2

end Kobzar.BTree
