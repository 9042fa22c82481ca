import Kobzar.PageStore.Vacant

/-!
# How many places the cache takes

A page that is loaded is put behind the last one, also when an eviction has left a place free: nothing takes a
place off the vacant list. So the places are as many as the pages ever loaded, and they stay within what the store
is configured for, or what was cached at one time, exactly through the runs that load no page once the configured
places are taken and one of them is free (`slotsBounded_of_run`).
-/

namespace Kobzar

open Search Runs

namespace PageStore

variable {K B P : Type} [DecidableEq B]

/-- How many pages are cached. -/
def cachedCount (store : PageStore B P) : Nat := store.pageMap.keys.length

/-- A page whose entry is renewed is counted once. -/
theorem length_keys_insert_of_mem {pageMap : PageMap B} {key : B} {before : CacheMeta}
    (h : pageMap.lookup key = some before)
    (cached : CacheMeta) : (pageMap.insert key cached).keys.length = pageMap.keys.length := by
  have hmem : key ∈ pageMap.keys :=
    AList.mem_keys.mp (AList.lookup_isSome.mp (Option.isSome_iff_exists.mpr ⟨before, h⟩))
  have hpos := List.length_pos_of_mem hmem
  rw [AList.keys_insert, List.length_cons, List.length_erase_of_mem hmem]
  omega

/-- A page that gets its first entry is counted once more. -/
theorem length_keys_insert_of_not_mem {pageMap : PageMap B} {key : B} (h : pageMap.lookup key = none)
    (cached : CacheMeta) : (pageMap.insert key cached).keys.length = pageMap.keys.length + 1 := by
  have hmem : key ∉ pageMap.keys := fun hkey => AList.lookup_eq_none.mp h (AList.mem_keys.mpr hkey)
  rw [AList.keys_insert, List.length_cons, List.erase_of_not_mem hmem]

/-- A map with no other pages has no more of them. -/
theorem length_keys_le {pageMap pageMap' : PageMap B}
    (h : ∀ key, (pageMap'.lookup key).isSome → (pageMap.lookup key).isSome) :
    pageMap'.keys.length ≤ pageMap.keys.length := by
  refine (pageMap'.keys_nodup.subperm fun key hkey => ?_).length_le
  exact AList.mem_keys.mp (AList.lookup_isSome.mp (h key (AList.lookup_isSome.mpr (AList.mem_keys.mpr hkey))))

/-- What a call does to the number of places and of cached pages: a page that is loaded adds one to both, no other
call adds to either. -/
inductive CountStep (store store' : PageStore B P) (loads : Prop) : Prop
  | load (hloads : loads) (pages : store'.pages.length = store.pages.length + 1)
      (cached : store'.cachedCount = store.cachedCount + 1)
  | same (hnot : ¬loads) (pages : store'.pages.length = store.pages.length)
      (cached : store'.cachedCount ≤ store.cachedCount)

/-- An eviction takes no place away, and adds no page. -/
theorem countStep_evict {search : BinarySearch} {store store' : PageStore B P} {count : Nat} {order : IterOrder B}
    (h : store.evict search count order = .ok store') : store.CountStep store' False := by
  obtain ⟨victims, pageMap, -, hlookup, hpages, -, -, -⟩ := evict_spec h
  refine .same id (congrArg List.length hpages) (length_keys_le fun key hkey => ?_)
  rw [hlookup key] at hkey
  split at hkey
  · cases hkey
  · rwa [Option.isSome_map] at hkey

variable [KeyExt K B] [KeyExt B B] [Pod P]

/-- Fetching a page adds to the counts exactly when it loads the page. -/
theorem countStep_fetch {store : PageStore B P} {files : Files} {faults : Faults} {item : K} {create : Bool}
    {after : After B P CacheMeta} (h : store.fetch files faults item create = .ok after) :
    store.CountStep after.store (store.LoadsPage files faults item create) := by
  cases fetchCase_of_fetch h with
  | hit hnot there => exact .same hnot rfl (Nat.le_of_eq (length_keys_insert_of_mem there _))
  | fails hnot => exact .same hnot rfl (Nat.le_refl _)
  | loads hloads =>
    refine .load hloads ?_ (length_keys_insert_of_not_mem hloads.1 _)
    rw [addPage, List.length_append, List.length_singleton]

/-- Handing out a page does to the counts what fetching it does. -/
theorem countStep_itemPageMut {store : PageStore B P} {files : Files} {faults : Faults} {item : K} {create : Bool}
    {after : After B P (PageRef P)} (h : store.itemPageMut files faults item create = .ok after) :
    store.CountStep after.store (store.LoadsPage files faults item create) := by
  obtain ⟨fetched, hfetch, hcase⟩ := handsOut_of_itemPageMut h
  have hstep := countStep_fetch hfetch
  cases hcase with
  | refused => exact hstep
  | @marked entry page found there =>
    have hcount := length_keys_insert_of_mem there { entry with dirty := true }
    cases hstep with
    | load hloads pages cached => exact .load hloads pages (hcount.trans cached)
    | same hnot pages cached => exact .same hnot pages (hcount.trans_le cached)

end PageStore

namespace Traced

variable {K B P : Type} [DecidableEq B] [KeyExt K B] [KeyExt B B] [Pod P]

/-- What a call does to the counts. -/
theorem countStep_step {search : BinarySearch} {s t : Traced B P} {op : StoreOp K B P} (h : s.step search op = .ok t) :
    s.store.CountStep t.store (s.Loads op) := by
  cases ran_of_step h with
  | fetches run => exact PageStore.countStep_fetch run
  | refused run => exact PageStore.countStep_itemPageMut run
  | @writes _ _ _ _ store' _ ref run =>
    -- a write to a page adds none
    have hpages : ∀ page, (store'.writePage ref.idx page).pages.length = store'.pages.length := fun _ => List.length_set
    cases PageStore.countStep_itemPageMut run with
    | load hloads pages cached => exact .load hloads ((hpages _).trans pages) cached
    | same hnot pages cached => exact .same hnot ((hpages _).trans pages) cached
  | evicts run => exact PageStore.countStep_evict run

/-- The call loads a page only while fewer places are taken than are configured, or while every place is that of a
cached page. -/
def FillsPlaces (recs : Nat) (s : Traced B P) (op : StoreOp K B P) : Prop :=
  s.Loads op → s.store.pages.length < recs ∨ s.store.cachedCount = s.store.pages.length

end Traced

/-! ## Runs with the greatest number of cached pages -/

/-- A store and its files, with the greatest number of pages that were cached at one time so far. -/
structure Peaked (B P : Type) where
  traced : Traced B P
  peak : Nat

namespace Peaked

variable {K B P : Type} [DecidableEq B] [KeyExt K B] [KeyExt B B] [Pod P]

/-- A new store, before any call. -/
def start (path : Path) (recs : Nat) (files : Files) : Peaked B P where
  traced := Traced.start path recs files
  peak := 0

/-- One call, and what it makes of the greatest number. -/
def step (search : BinarySearch) (s : Peaked B P) (op : StoreOp K B P) : Outcome (Peaked B P) := do
  let traced ← s.traced.step search op
  return { traced := traced, peak := max s.peak traced.store.cachedCount }

/-- The places are no more than the configured ones, or than the pages that were cached at one time. -/
def SlotsBounded (recs : Nat) (s : Peaked B P) : Prop := s.traced.store.pages.length ≤ max recs s.peak

/-- A run of calls from a new store that all fill the places before they take a new one. -/
def FillingRun (K : Type) [KeyExt K B] (search : BinarySearch) (path : Path) (recs : Nat) (files : Files)
    (s : Peaked B P) : Prop :=
  Reaches (fun s (op : StoreOp K B P) => s.traced.FillsPlaces recs op) (fun s op t => s.step search op = .ok t)
    (start path recs files) s

theorem step_ok {search : BinarySearch} {s : Peaked B P} {op : StoreOp K B P} {t : Traced B P}
    (h : s.traced.step search op = .ok t) :
    s.step search op = .ok { traced := t, peak := max s.peak t.store.cachedCount } := by
  simp only [step, h, ok_bind]
  rfl

/-- The counts of a run: as many pages are cached as the greatest number at most, and that is no more than there
are places. -/
structure Counted (recs : Nat) (s : Peaked B P) : Prop where
  cached_le : s.traced.store.cachedCount ≤ s.peak
  peak_le : s.peak ≤ s.traced.store.pages.length
  bounded : s.SlotsBounded recs

/-- One call that fills the places first keeps the counts. -/
theorem Counted.step {search : BinarySearch} {recs : Nat} {s t : Peaked B P} {op : StoreOp K B P} (hI : s.Counted recs)
    (hfills : s.traced.FillsPlaces recs op) (h : s.step search op = .ok t) : t.Counted recs := by
  obtain ⟨traced, htraced, ht⟩ := bind_eq_ok.mp h
  cases ht
  obtain ⟨hcached, hpeak, hbounded⟩ := hI
  unfold SlotsBounded at hbounded
  cases Traced.countStep_step htraced with
  | load hloads pages cached =>
    have hroom := hfills hloads
    refine ⟨Nat.le_max_right _ _, ?_, ?_⟩
    · simp only [pages, cached]
      omega
    · simp only [SlotsBounded, pages, cached]
      omega
  | same _ pages cached =>
    refine ⟨Nat.le_max_right _ _, ?_, ?_⟩
    · simp only [pages]
      omega
    · simp only [SlotsBounded, pages]
      omega

/-- A page loaded while the configured places are taken, and one of them is free, takes one place too many. -/
theorem Counted.exceeds {search : BinarySearch} {recs : Nat} {s t : Peaked B P} {op : StoreOp K B P} (hI : s.Counted recs)
    (hnot : ¬s.traced.FillsPlaces recs op) (h : s.step search op = .ok t) : ¬t.SlotsBounded recs := by
  obtain ⟨traced, htraced, ht⟩ := bind_eq_ok.mp h
  cases ht
  obtain ⟨hcached, hpeak, -⟩ := hI
  obtain ⟨hloads, hroom⟩ := Classical.not_imp.mp hnot
  obtain ⟨hfull, hfree⟩ := not_or.mp hroom
  cases Traced.countStep_step htraced with
  | load _ pages cached =>
    simp only [SlotsBounded, pages, cached]
    omega
  | same hnot => exact absurd hloads hnot

end Peaked

/-- When the places of the cache stay within bounds: in every state reached from a new store by calls that load a
page only while fewer places are taken than are configured, or while every place is that of a cached page. A call
that loads one otherwise, so that an evicted page's place could be used again, takes a place beyond the bound. -/
theorem slotsBounded_of_run {K B P : Type} [DecidableEq B] [KeyExt K B] [KeyExt B B] [Pod P] {search : BinarySearch}
    {path : Path} {recs : Nat} {files : Files} {s : Peaked B P} (hrun : s.FillingRun K search path recs files) :
    s.SlotsBounded recs ∧ ∀ (op : StoreOp K B P) t, s.step search op = .ok t → ¬s.traced.FillsPlaces recs op →
      ¬t.SlotsBounded recs := by
  have hI : s.Counted recs := by
    refine Reaches.inv (fun s : Peaked B P => s.Counted recs) (fun s op t hI hg hs => hI.step hg hs) hrun ?_
    exact ⟨Nat.le_refl 0, Nat.le_refl 0, Nat.zero_le _⟩
  exact ⟨hI.bounded, fun op t h hnot => hI.exceeds hnot h⟩

/-- A page is loaded into a store configured for four places. -/
theorem slotsBounded_of_run_one_page : ∃ s : Peaked IdxKey IdxPage,
    (Peaked.start ["heap"] 4 exampleFiles).step (K := IdxKey) .halving (.fetch firstPage false .none) = .ok s ∧
      s.SlotsBounded 4 := by
  have hfirst : (Peaked.start ["heap"] 4 exampleFiles : Peaked IdxKey IdxPage).step (K := IdxKey) .halving
      (.fetch firstPage false .none) = .ok _ :=
    Peaked.step_ok (Traced.step_fetch (PageStore.fetch_load _ firstPage rfl (loadFromDisk_example _ _)).1)
  have hrun : Peaked.FillingRun IdxKey .halving ["heap"] 4 exampleFiles _ :=
    (Reaches.refl _).snoc (.fetch firstPage false .none) (fun _ => Or.inl (by decide)) hfirst
  exact ⟨_, hfirst, (slotsBounded_of_run hrun).1⟩

/-- With one place configured, a page is loaded, evicted, and another one loaded: there are two places, though one
page was cached at any time. -/
theorem evicted_place_not_reused : ∃ s₁ s₂ s₃ : Peaked IdxKey IdxPage,
    (Peaked.start ["heap"] 1 exampleFiles).step (K := IdxKey) .halving (.fetch firstPage false .none) = .ok s₁ ∧
    s₁.step (K := IdxKey) .halving (.evict 1 (.id IdxKey)) = .ok s₂ ∧
    s₂.step (K := IdxKey) .halving (.fetch secondPage false .none) = .ok s₃ ∧ s₃.peak = 1 ∧
      ¬s₃.SlotsBounded 1 := by
  refine ⟨_, _, _, Peaked.step_ok
    (Traced.step_fetch (PageStore.fetch_load _ firstPage rfl (loadFromDisk_example _ _)).1), rfl,
    Peaked.step_ok (Traced.step_fetch (PageStore.fetch_load _ secondPage rfl (loadFromDisk_example _ _)).1), rfl, ?_⟩
  unfold Peaked.SlotsBounded
  decide

end Kobzar
