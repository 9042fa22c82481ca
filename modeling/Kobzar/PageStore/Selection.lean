import Kobzar.PageStore.Updates

/-!
# Which pages eviction selects

An eviction is meant to drop the pages that score highest. The scoring loop lets the highest one of those chosen so
far make room, and puts the next page at a place that it computed before, so that it ends with the pages that score
lowest, or panics. An eviction does what it is meant to exactly when the pages to drop need no selecting and there
can be room for as many as are asked for (`evict_selects_iff`).
-/

namespace Kobzar

open Search Loop

variable {B P : Type}

/-! ## When a page can be put in its place -/

/-- While there is room, the page is put in its place. -/
theorem retain_room (search : BinarySearch) {count : Nat} {toEvict : List (Scored B)} (hr : Ranked toEvict)
    (hroom : toEvict.length < count) (x : Scored B) : ∃ out, retain search count toEvict x = .ok out := by
  obtain ⟨hle, -⟩ := placeOf_spec search hr x.score
  refine ⟨toEvict.insertIdx (placeOf search toEvict x.score) x, ?_⟩
  simp only [retain, if_neg (Nat.not_le.mpr hroom), insertAt, if_pos hle]

/-- Among pages that all have its score, a page has a place before the last one. -/
theorem placeOf_level (search : BinarySearch) {xs : List (Scored B)} (hr : Ranked xs) {score : U64}
    (hlevel : ∀ y ∈ xs, y.score.toNat = score.toNat) : placeOf search xs score ≤ xs.dropLast.length := by
  have hans := search.run_answers (Cut.of_sorted (fun s : Scored B => s.score.toNat) score.toNat hr)
  rw [List.length_dropLast]
  unfold placeOf
  cases hrun : search.run (fun s => compare s.score.toNat score.toNat) xs with
  | ok i =>
    rw [hrun] at hans
    obtain ⟨hi, -⟩ := hans
    show i ≤ xs.length - 1
    omega
  | error i =>
    rw [hrun] at hans
    cases xs with
    | nil => exact hans.1
    | cons y ys => exact absurd (compare_eq_iff_eq.mpr (hlevel y List.mem_cons_self)) (hans.not_eq List.mem_cons_self)

/-- Among pages that all have its score, the page is put in its place. -/
theorem retain_level (search : BinarySearch) (count : Nat) {toEvict : List (Scored B)} (hr : Ranked toEvict)
    {x : Scored B}
    (hlevel : ∀ y ∈ toEvict, y.score.toNat = x.score.toNat) : ∃ out, retain search count toEvict x = .ok out := by
  rcases Nat.lt_or_ge toEvict.length count with hroom | hfull
  · exact retain_room search hr hroom x
  · refine ⟨toEvict.dropLast.insertIdx (placeOf search toEvict x.score) x, ?_⟩
    simp only [retain, if_pos hfull, insertAt, if_pos (placeOf_level search hr hlevel)]

namespace PageStore

variable [DecidableEq B]

/-! ## How many pages are chosen -/

/-- No more pages are chosen than were visited. -/
theorem Scoring.length_le_done {store : PageStore B P} {count : Nat} {done : List B} {pass : PageMap B × List (Scored B)}
    (hI : store.Scoring count done pass) : pass.2.length ≤ done.length := by
  have hsub : pass.2.map (·.key) ⊆ done := by
    intro key hkey
    obtain ⟨scored, hscored, rfl⟩ := List.mem_map.mp hkey
    exact (hI.chosen scored hscored).1
  have hle := (hI.nodup.subperm hsub).length_le
  rwa [List.length_map] at hle

/-- Of cached pages, as many are chosen as were visited, up to the bound. -/
theorem Scoring.length_eq {store : PageStore B P} {count : Nat} {done : List B} {pass : PageMap B × List (Scored B)}
    (hI : store.Scoring count done pass) (hnodup : done.Nodup)
    (hcached : ∀ key ∈ done, ∃ cached, store.pageMap.lookup key = some cached) :
    pass.2.length = min (max count 1) done.length := by
  have hbound := hI.length_le
  have hvisited := hI.length_le_done
  by_cases hall : done ⊆ pass.2.map (·.key)
  · have hle := (hnodup.subperm hall).length_le
    rw [List.length_map] at hle
    omega
  · -- a page visited and not chosen means that the bound is reached
    simp only [List.subset_def, not_forall] at hall
    obtain ⟨key, hdone, hnot⟩ := hall
    obtain ⟨cached, hlookup⟩ := hcached key hdone
    have := (hI.rest key hdone hnot cached hlookup).1
    omega

/-- A visited key is one of the cached pages. -/
theorem cached_of_mem_arrange (store : PageStore B P) (order : IterOrder B) {key : B}
    (hkey : key ∈ order.arrange store.pageMap.keys) : ∃ cached, store.pageMap.lookup key = some cached := by
  rw [(order.arrange_perm _).mem_iff, ← AList.mem_keys, ← AList.lookup_isSome] at hkey
  exact Option.isSome_iff_exists.mp hkey

/-! ## When the loop ends -/

/-- All cached pages have one score. -/
def Level (store : PageStore B P) : Prop :=
  ∀ key other cached stays, store.pageMap.lookup key = some cached → store.pageMap.lookup other = some stays →
    cached.scoreAt store.lastGen = stays.scoreAt store.lastGen

/-- A pass over a cached page not visited before ends when there is room for the page, or all pages have one score. -/
theorem scorePage_ok (search : BinarySearch) {store : PageStore B P} {count : Nat} {done : List B}
    {pass : PageMap B × List (Scored B)} {key : B} (hI : store.Scoring count done pass) (hnew : key ∉ done)
    {cached : CacheMeta} (hcached : store.pageMap.lookup key = some cached)
    (hcase : done.length < count ∨ store.Level) :
    ∃ pass', scorePage search count store.lastGen pass key = .ok pass' := by
  have hlookup := hI.lookup key
  rw [if_neg hnew, hcached] at hlookup
  have hretain : ∃ out, retain search count pass.2
      { idx := cached.idx, score := (cached.evictionScore store.lastGen).2, key := key } = .ok out := by
    rcases hcase with hroom | hlevel
    · exact retain_room search hI.ranked (Nat.lt_of_le_of_lt hI.length_le_done hroom) _
    · refine retain_level search count hI.ranked ?_
      intro y hy
      obtain ⟨-, other, hother, -, hscore⟩ := hI.chosen y hy
      exact hscore.trans (hlevel y.key key other cached hother hcached)
  obtain ⟨out, hout⟩ := hretain
  refine ⟨(pass.1.insert key cached.normalize, out), ?_⟩
  unfold scorePage
  rw [hlookup]
  simp only [CacheMeta.evictionScore, CacheMeta.normalize_idx] at hout ⊢
  rw [hout]
  rfl

/-- An eviction ends when there can be room for the pages, and no more pages are cached than are to be evicted or
all pages have one score. -/
theorem evict_ok (search : BinarySearch) (store : PageStore B P) {count : Nat} (order : IterOrder B)
    (hfits : CapacityFits count) (hcase : store.pageMap.keys.length ≤ count ∨ store.Level) :
    ∃ store', store.evict search count order = .ok store' := by
  have hperm := order.arrange_perm store.pageMap.keys
  have hnodup : (order.arrange store.pageMap.keys).Nodup := hperm.nodup_iff.mpr store.pageMap.keys_nodup
  have hloop : ∃ pass, (order.arrange store.pageMap.keys).foldlM (scorePage search count store.lastGen)
    (store.pageMap, []) =
      .ok pass ∧ store.Scoring count (order.arrange store.pageMap.keys) pass := by
    refine foldlM_ok (fun done pass => store.Scoring count done pass) (scoring_start store count) ?_
    intro done key rest pass hkeys hI
    have hvisited : key ∈ order.arrange store.pageMap.keys := by simp [hkeys]
    have hlen : done.length < (order.arrange store.pageMap.keys).length := by simp [hkeys]
    have hnew : key ∉ done := by
      rw [hkeys, List.nodup_append] at hnodup
      exact fun hmem => hnodup.2.2 key hmem key List.mem_cons_self rfl
    obtain ⟨cached, hcached⟩ := store.cached_of_mem_arrange order hvisited
    rw [hperm.length_eq] at hlen
    obtain ⟨pass', hpass⟩ := scorePage_ok search hI hnew hcached (hcase.imp_left
      fun hle => Nat.lt_of_lt_of_le hlen hle)
    exact ⟨pass', hpass, scorePage_step hI hnew hpass⟩
  obtain ⟨⟨pageMap, victims⟩, hloop, -⟩ := hloop
  simp only [evict, withCapacity, if_pos hfits, hloop, ok_bind]
  exact ⟨_, rfl⟩

/-- An eviction that ends had room for the pages. -/
theorem capacityFits_of_evict {search : BinarySearch} {store store' : PageStore B P} {count : Nat} {order : IterOrder B}
    (h : store.evict search count order = .ok store') : CapacityFits count := by
  obtain ⟨toEvict, hroom, -⟩ := bind_eq_ok.mp h
  exact (ite_eq_ok_iff.mp hroom).1

/-! ## What an eviction is meant to do -/

/-- The keys of the pages cached before and not after. -/
def evicted (store store' : PageStore B P) : List B :=
  store.pageMap.keys.filter fun key => (store'.pageMap.lookup key).isNone

theorem mem_evicted {store store' : PageStore B P} {key : B} :
    key ∈ store.evicted store' ↔ (∃ cached, store.pageMap.lookup key = some cached) ∧
      store'.pageMap.lookup key = none := by
  rw [evicted, List.mem_filter, ← AList.mem_keys, ← AList.lookup_isSome, Option.isSome_iff_exists,
    Option.isNone_iff_eq_none]

/-- Not all pages are dropped when some page stays. -/
theorem evicted_lt_iff {store store' : PageStore B P} : (store.evicted store').length < store.pageMap.keys.length ↔
    ∃ key cached, store.pageMap.lookup key = some cached ∧ (store'.pageMap.lookup key).isSome := by
  rw [evicted, List.length_filter_lt_length_iff_exists]
  constructor
  · rintro ⟨key, hkey, hstays⟩
    rw [← AList.mem_keys, ← AList.lookup_isSome] at hkey
    obtain ⟨cached, hcached⟩ := Option.isSome_iff_exists.mp hkey
    exact ⟨key, cached, hcached, by simpa [Option.isSome_iff_ne_none] using hstays⟩
  · rintro ⟨key, cached, hcached, hstays⟩
    refine ⟨key, ?_, by simpa [Option.isSome_iff_ne_none] using hstays⟩
    rw [← AList.mem_keys, ← AList.lookup_isSome, hcached]
    rfl

/-- An eviction of `count` pages selects rightly: it drops that many pages, or all of them; a page dropped scores
no lower than one that stays; and a page that stays keeps its place and whether it is dirty. -/
structure EvictsRight (store : PageStore B P) (count : Nat) (store' : PageStore B P) : Prop where
  count_eq : (store.evicted store').length = min count store.pageMap.keys.length
  highest : ∀ key ∈ store.evicted store', ∀ cached, store.pageMap.lookup key = some cached →
    ∀ other stays, store.pageMap.lookup other = some stays → (store'.pageMap.lookup other).isSome →
      stays.scoreAt store.lastGen ≤ cached.scoreAt store.lastGen
  kept : ∀ key after, store'.pageMap.lookup key = some after →
    ∃ cached, store.pageMap.lookup key = some cached ∧ after.idx = cached.idx ∧ after.dirty = cached.dirty

/-- When every page that is dropped has the score of every page that stays, and there are pages of both kinds, all
have one. -/
theorem level_of_same {store store' : PageStore B P} (hsome : 0 < (store.evicted store').length)
    (hfewer : (store.evicted store').length < store.pageMap.keys.length)
    (hsame : ∀ key ∈ store.evicted store', ∀ cached, store.pageMap.lookup key = some cached →
      ∀ other stays, store.pageMap.lookup other = some stays → (store'.pageMap.lookup other).isSome →
        stays.scoreAt store.lastGen = cached.scoreAt store.lastGen) : store.Level := by
  obtain ⟨gone, hgone⟩ := List.exists_mem_of_length_pos hsome
  obtain ⟨⟨goneMeta, hgoneMeta⟩, -⟩ := mem_evicted.mp hgone
  obtain ⟨left, leftMeta, hleftMeta, hleft⟩ := evicted_lt_iff.mp hfewer
  have hone : ∀ key cached, store.pageMap.lookup key = some cached →
      cached.scoreAt store.lastGen = goneMeta.scoreAt store.lastGen := by
    intro key cached hcached
    cases hkey : store'.pageMap.lookup key with
    | none =>
      have hevicted := mem_evicted.mpr ⟨⟨cached, hcached⟩, hkey⟩
      rw [← hsame key hevicted cached hcached left leftMeta hleftMeta hleft]
      exact hsame gone hgone goneMeta hgoneMeta left leftMeta hleftMeta hleft
    | some after => exact hsame gone hgone goneMeta hgoneMeta key cached hcached (by rw [hkey]; rfl)
  intro key other cached stays hcached hstays
  exact (hone key cached hcached).trans (hone other stays hstays).symm

/-- What an eviction of at least one page does when it ends: the number of pages and what stays are right, and a
page dropped scores no higher than one that stays. -/
theorem evict_drops {search : BinarySearch} {store store' : PageStore B P} {count : Nat} {order : IterOrder B}
    (hcount : 1 ≤ count) (h : store.evict search count order = .ok store') :
    (store.evicted store').length = min count store.pageMap.keys.length ∧
      (∀ key ∈ store.evicted store', ∀ cached, store.pageMap.lookup key = some cached →
        ∀ other stays, store.pageMap.lookup other = some stays → (store'.pageMap.lookup other).isSome →
          cached.scoreAt store.lastGen ≤ stays.scoreAt store.lastGen) ∧
      (∀ key after, store'.pageMap.lookup key = some after →
        ∃ cached, store.pageMap.lookup key = some cached ∧ after.idx = cached.idx ∧
          after.dirty = cached.dirty) := by
  obtain ⟨victims, pageMap, hI, hlookup, -, -, -, -⟩ := evict_spec h
  have hperm := order.arrange_perm store.pageMap.keys
  have hchosen : ∀ key, key ∈ store.evicted store' ↔ key ∈ victims.map (·.key) := by
    intro key
    rw [mem_evicted, hlookup key]
    constructor
    · rintro ⟨⟨cached, hcached⟩, hnone⟩
      by_contra hnot
      simp [hnot, hcached] at hnone
    · intro hmem
      obtain ⟨scored, hscored, rfl⟩ := List.mem_map.mp hmem
      obtain ⟨-, cached, hcached, -⟩ := hI.chosen scored hscored
      exact ⟨⟨cached, hcached⟩, if_pos hmem⟩
  refine ⟨?_, ?_, ?_⟩
  · have hsame : (store.evicted store').Perm (victims.map (·.key)) :=
      (List.perm_ext_iff_of_nodup (store.pageMap.keys_nodup.filter _) hI.nodup).mpr hchosen
    have hlen := hI.length_eq (hperm.nodup_iff.mpr store.pageMap.keys_nodup) fun key => store.cached_of_mem_arrange order
    rw [hsame.length_eq, List.length_map, hlen, hperm.length_eq, Nat.max_eq_left hcount]
  · intro key hkey cached hcached other stays hstays hin
    obtain ⟨scored, hscored, rfl⟩ := List.mem_map.mp ((hchosen key).mp hkey)
    obtain ⟨-, c, hc, -, hscore⟩ := hI.chosen scored hscored
    rw [hcached] at hc
    cases hc
    have hnot : other ∉ victims.map (·.key) := by
      intro hmem
      rw [hlookup other, if_pos hmem] at hin
      cases hin
    have hvisited : other ∈ order.arrange store.pageMap.keys := by
      rw [hperm.mem_iff, ← AList.mem_keys, ← AList.lookup_isSome, hstays]
      rfl
    rw [← hscore]
    exact (hI.rest other hvisited hnot stays hstays).2 scored hscored
  · intro key after hafter
    rw [hlookup key] at hafter
    split at hafter
    · cases hafter
    · obtain ⟨cached, hcached, rfl⟩ := Option.map_eq_some_iff.mp hafter
      exact ⟨cached, hcached, rfl, rfl⟩

end PageStore

/-- When an eviction does what it is meant to. For any cache, any binary search and any order in which the map
hands out its keys, an eviction of at least one page ends and selects rightly exactly when there can be room for as
many pages as are to be evicted, and no more pages are cached than that or all of them have one score. -/
theorem evict_selects_iff {B P : Type} [DecidableEq B] (search : BinarySearch) (store : PageStore B P) {count : Nat}
    (order : IterOrder B) (hcount : 1 ≤ count) :
    (∃ store', store.evict search count order = .ok store' ∧ store.EvictsRight count store') ↔
      CapacityFits count ∧ (store.pageMap.keys.length ≤ count ∨ store.Level) := by
  constructor
  · rintro ⟨store', hevict, hcounted, hhighest, -⟩
    obtain ⟨-, hlowest, -⟩ := PageStore.evict_drops hcount hevict
    refine ⟨PageStore.capacityFits_of_evict hevict, ?_⟩
    by_contra hnot
    obtain ⟨hmany, hlevel⟩ := not_or.mp hnot
    -- some page is dropped and some page stays, and the one scores neither lower nor higher than the other
    have hsome : 0 < (store.evicted store').length := by omega
    refine hlevel (PageStore.level_of_same hsome (by omega) ?_)
    intro key hkey cached hcached other stays hstays hin
    exact Nat.le_antisymm (hhighest key hkey cached hcached other stays hstays hin)
      (hlowest key hkey cached hcached other stays hstays hin)
  · rintro ⟨hfits, hcase⟩
    obtain ⟨store', hevict⟩ := PageStore.evict_ok search store order hfits hcase
    obtain ⟨hcounted, hlowest, hkept⟩ := PageStore.evict_drops hcount hevict
    refine ⟨store', hevict, hcounted, ?_, hkept⟩
    intro key hkey cached hcached other stays hstays hin
    rcases hcase with hfew | hlevel
    · -- no page stays
      have hlt := PageStore.evicted_lt_iff.mpr ⟨other, stays, hstays, hin⟩
      omega
    · exact Nat.le_of_eq (hlevel other key stays cached hstays hcached)

/-! ### Two pages, loaded one after the other -/

/-- A store with the first page of an index loaded in one generation and the second in the next. -/
def twoPages : PageStore IdxKey IdxPage :=
  (exampleStart.store.addPage firstPage (pageOf 0)).addPage secondPage (pageOf 0)

/-- The keys in reverse. -/
def IterOrder.reversed (B : Type) : IterOrder B := { arrange := List.reverse, arrange_perm := List.reverse_perm }

/-- Both pages are evicted, but not more pages than there can be room for. -/
theorem evict_selects_both :
    (∃ store', twoPages.evict .halving 2 (.id IdxKey) = .ok store' ∧ twoPages.EvictsRight 2 store') ∧
      ¬∃ store', twoPages.evict .halving (2 ^ 64 - 1) (.id IdxKey) = .ok store' ∧
        twoPages.EvictsRight (2 ^ 64 - 1) store' :=
  ⟨(evict_selects_iff .halving twoPages (.id IdxKey) (by decide)).mpr ⟨by decide, Or.inl (by decide +kernel)⟩,
    fun h => absurd ((evict_selects_iff .halving twoPages (.id IdxKey) (by decide)).mp h).1 (by decide +kernel)⟩

/-- One page is evicted. When the map hands out the second page first, the first page is dropped, which scores
lower than the second; when it hands out the first page first, the eviction panics. -/
theorem evict_drops_lower_score :
    (∃ store', twoPages.evict .halving 1 (.id IdxKey) = .ok store' ∧ ¬twoPages.EvictsRight 1 store') ∧
      twoPages.evict .halving 1 (.reversed IdxKey) = .error (.message "index exceeds length") := by
  refine ⟨⟨_, rfl, ?_⟩, rfl⟩
  intro h
  have hle := h.highest firstPage (by decide +kernel) _ rfl secondPage _ rfl rfl
  exact absurd hle (by decide +kernel)

end Kobzar
