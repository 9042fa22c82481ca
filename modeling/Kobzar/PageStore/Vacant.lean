import Kobzar.PageStore.Isolation

/-!
# The list of vacant places

A new store lists as vacant as many places as it is configured for, and an eviction adds those of the pages it
drops. A page that is loaded is put behind the last page, and its place stays listed if it was. The list is
truthful through the runs that load no page into a listed place (`vacantTruthful_of_run`): with at least one place
configured, those that load no page.
-/

namespace Kobzar

open Search Runs

namespace PageStore

variable {K B P : Type} [DecidableEq B]

/-- The place of a page, if it is cached. -/
def placeFor (store : PageStore B P) (key : B) : Option Nat := (store.pageMap.lookup key).map (·.idx)

theorem placeFor_eq_some {store : PageStore B P} {key : B} {i : Nat} :
    store.placeFor key = some i ↔ ∃ cached, store.pageMap.lookup key = some cached ∧ cached.idx = i :=
  Option.map_eq_some_iff

/-- The list of vacant places is truthful: no place is listed twice, and none that a cached page lies at. -/
structure VacantTruthful (store : PageStore B P) : Prop where
  nodup : store.vacantPages.Nodup
  unused : ∀ place ∈ store.vacantPages, ∀ key cached, store.pageMap.lookup key = some cached →
    cached.idx ≠ place.toNat

/-! ## What a call does to the places -/

/-- What a call does to the places of the cached pages and to the vacant ones: nothing, unless it loads a page,
which then lies behind the last one, or evicts some. -/
inductive PlaceStep (store store' : PageStore B P) (loads evicts : Prop) : Prop
  | same (hnot : ¬loads) (vacant : store'.vacantPages = store.vacantPages)
      (places : ∀ key, store'.placeFor key = store.placeFor key)
  | load (key : B) (hloads : loads) (vacant : store'.vacantPages = store.vacantPages)
      (places : ∀ key', store'.placeFor key' = if key' = key then some store.pages.length else store.placeFor key')
  | evict (victims : List (Scored B)) (hevicts : evicts) (nodup : (victims.map (·.key)).Nodup)
      (chosen : ∀ scored ∈ victims, store.placeFor scored.key = some scored.idx)
      (vacant : store'.vacantPages = store.vacantPages ++ victims.map fun scored => BitVec.ofNat 32 scored.idx)
      (places : ∀ key, store'.placeFor key = if key ∈ victims.map (·.key) then none else store.placeFor key)

/-- An eviction drops pages and lists their places as vacant. -/
theorem placeStep_evict {search : BinarySearch} {store store' : PageStore B P} {count : Nat} {order : IterOrder B}
    (h : store.evict search count order = .ok store') : store.PlaceStep store' False True := by
  obtain ⟨victims, pageMap, hI, hlookup, -, -, -, hvacant⟩ := evict_spec h
  refine .evict victims trivial hI.nodup (fun scored hscored => ?_) hvacant fun key => ?_
  · obtain ⟨-, cached, hcached, hidx, -⟩ := hI.chosen scored hscored
    exact placeFor_eq_some.mpr ⟨cached, hcached, hidx.symm⟩
  · rw [placeFor, hlookup key, placeFor]
    split
    · rfl
    · rw [Option.map_map]
      rfl

variable [KeyExt K B] [KeyExt B B] [Pod P]

/-- A call for an item loads a page: that of the item is not in the cache, and can be read. -/
def LoadsPage (store : PageStore B P) (files : Files) (faults : Faults) (item : K) (create : Bool) : Prop :=
  store.pageMap.lookup (KeyExt.pageBound item) = none ∧
    ∃ page, (store.loadFromDisk files faults (KeyExt.pageBound item) create).2 = .ok page

/-- What fetching a page comes to: an access to a cached page is recorded, a page that cannot be loaded leaves the
store as it is, and one that is loaded is added to it. -/
inductive FetchCase (store : PageStore B P) (files : Files) (faults : Faults) (item : K) (create : Bool) :
    After B P CacheMeta → Prop
  | hit {cached : CacheMeta} (hnot : ¬store.LoadsPage files faults item create)
      (there : store.pageMap.lookup (KeyExt.pageBound item) = some cached) :
    FetchCase store files faults item create ⟨{ store with
      pageMap := store.pageMap.insert (KeyExt.pageBound item) (cached.touch store.lastGen)
      lastGen := store.lastGen + 1 }, files, .ok (cached.touch store.lastGen)⟩
  | fails {files' : Files} {e : PageReadError} (hnot : ¬store.LoadsPage files faults item create) :
    FetchCase store files faults item create ⟨store, files', .error e⟩
  | loads {files' : Files} {page : P} (hloads : store.LoadsPage files faults item create) :
    FetchCase store files faults item create
      ⟨store.addPage (KeyExt.pageBound item) page, files', .ok store.freshEntry⟩

/-- A fetch that ends comes to one of these. -/
theorem fetchCase_of_fetch {store : PageStore B P} {files : Files} {faults : Faults} {item : K} {create : Bool}
    {after : After B P CacheMeta} (h : store.fetch files faults item create = .ok after) :
    store.FetchCase files faults item create after := by
  cases hlookup : store.pageMap.lookup (KeyExt.pageBound item) with
  | some cached =>
    have hnot : ¬store.LoadsPage files faults item create := by
      rintro ⟨hnone, -⟩
      rw [hlookup] at hnone
      cases hnone
    simp only [fetch, touch, hlookup, getCached, AList.lookup_insert, ok_bind] at h
    cases h
    exact .hit hnot hlookup
  | none =>
    rcases hload : store.loadFromDisk files faults (KeyExt.pageBound item) create with ⟨files', e | page⟩
    · have hnot : ¬store.LoadsPage files faults item create := by
        rintro ⟨-, page, hpage⟩
        rw [hload] at hpage
        cases hpage
      rw [fetch_fail hlookup hload] at h
      cases h
      exact .fails hnot
    · rw [(store.fetch_load item hlookup hload).1] at h
      cases h
      exact .loads ⟨hlookup, page, by rw [hload]⟩

omit [KeyExt K B] [KeyExt B B] [Pod P] in
/-- A page whose entry is renewed stays at its place. -/
theorem placeFor_insert_of_lookup {store store' : PageStore B P} {key : B} {before cached : CacheMeta}
    (h : store.pageMap.lookup key = some before) (hmap : store'.pageMap = store.pageMap.insert key cached)
    (hidx : cached.idx = before.idx) (key' : B) : store'.placeFor key' = store.placeFor key' := by
  by_cases hkey : key' = key
  · subst hkey
    simp [placeFor, hmap, h, hidx]
  · rw [placeFor, placeFor, hmap, AList.lookup_insert_ne hkey]

/-- Fetching a page does nothing to the places, unless it loads the page. -/
theorem placeStep_fetch {store : PageStore B P} {files : Files} {faults : Faults} {item : K} {create : Bool}
    {after : After B P CacheMeta} (h : store.fetch files faults item create = .ok after) :
    store.PlaceStep after.store (store.LoadsPage files faults item create) False := by
  cases fetchCase_of_fetch h with
  | hit hnot there => exact .same hnot rfl (placeFor_insert_of_lookup there rfl rfl)
  | fails hnot => exact .same hnot rfl fun _ => rfl
  | loads hloads =>
    refine .load (KeyExt.pageBound item) hloads rfl fun key => ?_
    by_cases hkey : key = KeyExt.pageBound item
    · subst hkey
      simp [placeFor, addPage]
    · rw [if_neg hkey, placeFor, placeFor, addPage, AList.lookup_insert_ne hkey]

/-- Handing out a page does to the places what fetching it does. -/
theorem placeStep_itemPageMut {store : PageStore B P} {files : Files} {faults : Faults} {item : K} {create : Bool}
    {after : After B P (PageRef P)} (h : store.itemPageMut files faults item create = .ok after) :
    store.PlaceStep after.store (store.LoadsPage files faults item create) False := by
  obtain ⟨fetched, hfetch, hcase⟩ := handsOut_of_itemPageMut h
  have hstep := placeStep_fetch hfetch
  cases hcase with
  | refused => exact hstep
  | @marked cached page found there =>
    have hplace : ∀ key, ({ fetched.store with
        pageMap := fetched.store.pageMap.insert (KeyExt.pageBound item) { cached with dirty := true } } :
          PageStore B P).placeFor key = fetched.store.placeFor key := placeFor_insert_of_lookup there rfl rfl
    cases hstep with
    | same hnot vacant places => exact .same hnot vacant fun key => (hplace key).trans (places key)
    | load key hloads vacant places => exact .load key hloads vacant fun key' => (hplace key').trans (places key')
    | evict _ hevicts => exact hevicts.elim

end PageStore

namespace Traced

variable {K B P : Type} [DecidableEq B] [KeyExt K B] [KeyExt B B] [Pod P]

/-- The call loads a page. -/
def Loads (s : Traced B P) : StoreOp K B P → Prop
  | .fetch key create faults => s.store.LoadsPage s.files faults key create
  | .itemPageMut key create faults _ => s.store.LoadsPage s.files faults key create
  | .evict _ _ => False

/-- The call is an eviction. -/
def Evicts : StoreOp K B P → Prop
  | .evict _ _ => True
  | _ => False

/-- What a call does to the places. -/
theorem placeStep_step {search : BinarySearch} {s t : Traced B P} {op : StoreOp K B P} (h : s.step search op = .ok t) :
    s.store.PlaceStep t.store (s.Loads op) (Evicts op) := by
  cases ran_of_step h with
  | fetches run => exact PageStore.placeStep_fetch run
  | refused run => exact PageStore.placeStep_itemPageMut run
  | writes run =>
    -- a write to a page moves no page
    cases PageStore.placeStep_itemPageMut run with
    | same hnot vacant places => exact .same hnot vacant places
    | load key hloads vacant places => exact .load key hloads vacant places
    | evict _ hevicts => exact hevicts.elim
  | evicts run => exact PageStore.placeStep_evict run

/-- The call keeps to the list of vacant places: a page that it loads comes to a place that is not listed, and before an
eviction the places of the cached pages are words of 32 bits, as the list holds them. -/
structure KeepsToList (s : Traced B P) (op : StoreOp K B P) : Prop where
  not_listed : s.Loads op → ∀ place ∈ s.store.vacantPages, place.toNat ≠ s.store.pages.length
  fits : Evicts op → ∀ key cached, s.store.pageMap.lookup key = some cached → cached.idx < 2 ^ 32

end Traced

namespace PageStore

variable {B P : Type} [DecidableEq B] {store store' : PageStore B P} {loads evicts : Prop}

theorem VacantTruthful.placeFor_ne (hI : store.VacantTruthful) {place : U32} (hplace : place ∈ store.vacantPages)
    (key : B) : store.placeFor key ≠ some place.toNat := by
  intro hkey
  obtain ⟨cached, hcached, hidx⟩ := placeFor_eq_some.mp hkey
  exact hI.unused place hplace key cached hcached hidx

/-- A list without repetition of places at which no cached page lies is truthful. -/
theorem vacantTruthful_of_placeFor (hnodup : store.vacantPages.Nodup)
    (hunused : ∀ place ∈ store.vacantPages, ∀ key, store.placeFor key ≠ some place.toNat) :
    store.VacantTruthful where
  nodup := hnodup
  unused place hplace key cached hcached hidx :=
    hunused place hplace key (placeFor_eq_some.mpr ⟨cached, hcached, hidx⟩)

/-- Pages at the same place are the same. -/
theorem SlotsOk.placeFor_inj (hok : store.SlotsOk) {key key' : B} {i : Nat} (h : store.placeFor key = some i)
    (h' : store.placeFor key' = some i) : key = key' := by
  obtain ⟨cached, hcached, rfl⟩ := placeFor_eq_some.mp h
  obtain ⟨cached', hcached', hidx⟩ := placeFor_eq_some.mp h'
  exact hok.distinct key key' cached cached' hcached hcached' hidx.symm

/-- Dropping pages, whose places are words of 32 bits, and listing these leaves a truthful list truthful. -/
theorem VacantTruthful.drop (hok : store.SlotsOk) (hI : store.VacantTruthful) {victims : List (Scored B)}
    (hnodup : (victims.map (·.key)).Nodup)
    (hchosen : ∀ scored ∈ victims, store.placeFor scored.key = some scored.idx)
    (hfits : ∀ scored ∈ victims, (BitVec.ofNat 32 scored.idx).toNat = scored.idx)
    (hvacant : store'.vacantPages = store.vacantPages ++ victims.map fun scored => BitVec.ofNat 32 scored.idx)
    (hplaces : ∀ key, store'.placeFor key = if key ∈ victims.map (·.key) then none else store.placeFor key) :
    store'.VacantTruthful := by
  refine vacantTruthful_of_placeFor ?_ ?_
  · rw [hvacant, List.nodup_append]
    refine ⟨hI.nodup, ?_, ?_⟩
    · -- two pages dropped lay at different places
      refine List.Nodup.map_on (fun a ha b hb heq => ?_) (List.Nodup.of_map _ hnodup)
      have hidx : a.idx = b.idx := by rw [← hfits a ha, ← hfits b hb, heq]
      exact List.inj_on_of_nodup_map hnodup ha hb (hok.placeFor_inj (hchosen a ha) (hidx ▸ hchosen b hb))
    · rintro place hplace _ hmem rfl
      obtain ⟨scored, hscored, rfl⟩ := List.mem_map.mp hmem
      refine hI.placeFor_ne hplace scored.key ?_
      rw [hfits scored hscored]
      exact hchosen scored hscored
  · intro place hplace key hkey
    rw [hplaces key] at hkey
    split at hkey
    · cases hkey
    · rename_i hstays
      rw [hvacant, List.mem_append] at hplace
      rcases hplace with hplace | hmem
      · exact hI.placeFor_ne hplace key hkey
      · -- a page that stays does not lie where one that is dropped lay
        obtain ⟨scored, hscored, rfl⟩ := List.mem_map.mp hmem
        rw [hfits scored hscored] at hkey
        exact hstays (List.mem_map.mpr ⟨scored, hscored, hok.placeFor_inj (hchosen scored hscored) hkey⟩)

/-- A call that keeps to a truthful list leaves it truthful. -/
theorem PlaceStep.vacantTruthful (hstep : store.PlaceStep store' loads evicts) (hok : store.SlotsOk)
    (hI : store.VacantTruthful) (hlisted : loads → ∀ place ∈ store.vacantPages, place.toNat ≠ store.pages.length)
    (hfits : evicts → ∀ key cached, store.pageMap.lookup key = some cached → cached.idx < 2 ^ 32) :
    store'.VacantTruthful := by
  cases hstep with
  | same hnot vacant places =>
    refine vacantTruthful_of_placeFor (vacant ▸ hI.nodup) ?_
    intro place hplace key
    rw [places key]
    exact hI.placeFor_ne (vacant ▸ hplace) key
  | load key hloads vacant places =>
    refine vacantTruthful_of_placeFor (vacant ▸ hI.nodup) ?_
    intro place hplace key'
    rw [vacant] at hplace
    rw [places key']
    split
    · -- the page loaded lies at a place that is not listed
      exact fun heq => hlisted hloads place hplace (Option.some.inj heq).symm
    · exact hI.placeFor_ne hplace key'
  | evict victims hevicts nodup chosen vacant places =>
    refine VacantTruthful.drop hok hI nodup chosen ?_ vacant places
    intro scored hscored
    obtain ⟨cached, hcached, hidx⟩ := placeFor_eq_some.mp (chosen scored hscored)
    have := hfits hevicts scored.key cached hcached
    rw [BitVec.toNat_ofNat]
    omega

/-- A page loaded into a listed place makes the list untruthful. -/
theorem PlaceStep.untruthful (hstep : store.PlaceStep store' loads evicts) (hloads : loads) (hevicts : ¬evicts)
    {place : U32} (hplace : place ∈ store.vacantPages)
    (hidx : place.toNat = store.pages.length) : ¬store'.VacantTruthful := by
  intro hI
  cases hstep with
  | same hnot => exact hnot hloads
  | load key _ vacant places =>
    refine hI.placeFor_ne (vacant ▸ hplace) key ?_
    rw [places key, if_pos rfl, hidx]
  | evict _ h => exact hevicts h

/-- The list of a new store is truthful when it holds different words. -/
theorem vacantTruthful_openAt (path : Path) {recs : Nat} (hrecs : recs ≤ 2 ^ 32) :
    (openAt path recs : PageStore B P).VacantTruthful where
  nodup := by
    refine List.Nodup.map_on ?_ List.nodup_range
    intro i hi j hj heq
    rw [List.mem_range] at hi hj
    have := congrArg BitVec.toNat heq
    simp only [BitVec.toNat_ofNat] at this
    omega
  unused place _ key cached h := by simp [openAt] at h

end PageStore

namespace Traced

variable {K B P : Type} [DecidableEq B] [KeyExt K B] [KeyExt B B] [Pod P]

/-- A run of calls from a new store that all keep to the list of vacant places. -/
def ListKeepingRun (K : Type) [KeyExt K B] (search : BinarySearch) (path : Path) (recs : Nat) (files : Files)
    (s : Traced B P) : Prop :=
  Reaches (fun s (op : StoreOp K B P) => s.KeepsToList op) (fun s op t => s.step search op = .ok t)
    (start path recs files) s

/-- One call that keeps to a truthful list leaves it truthful. -/
theorem step_vacantTruthful {search : BinarySearch} {s t : Traced B P} {op : StoreOp K B P}
    (hI : s.store.SlotsOk ∧ s.store.VacantTruthful) (hg : s.KeepsToList op) (h : s.step search op = .ok t) :
    t.store.SlotsOk ∧ t.store.VacantTruthful :=
  ⟨step_slotsOk hI.1 h, (placeStep_step h).vacantTruthful hI.1 hI.2 hg.not_listed hg.fits⟩

/-- A call that loads a page is no eviction. -/
theorem not_evicts_of_loads {s : Traced B P} {op : StoreOp K B P} (h : s.Loads op) : ¬Evicts op := by
  cases op with
  | fetch => exact id
  | itemPageMut => exact id
  | evict => exact h.elim

end Traced

/-- When the list of vacant places is truthful: in every state reached from a new store, configured for no more
places than a word numbers, by calls that keep to the list. A call that does not, as it loads a page into a listed
place, leaves the list untruthful. -/
theorem vacantTruthful_of_run {K B P : Type} [DecidableEq B] [KeyExt K B] [KeyExt B B] [Pod P] {search : BinarySearch}
    {path : Path} {recs : Nat} {files : Files} {s : Traced B P} (hrecs : recs ≤ 2 ^ 32)
    (hrun : s.ListKeepingRun K search path recs files) :
    s.store.VacantTruthful ∧ ∀ (op : StoreOp K B P) t, s.step search op = .ok t → s.Loads op →
      (∃ place ∈ s.store.vacantPages, place.toNat = s.store.pages.length) → ¬t.store.VacantTruthful := by
  refine ⟨?_, fun op t h hloads ⟨place, hplace, hidx⟩ => ?_⟩
  · exact (Reaches.inv (fun s => s.store.SlotsOk ∧ s.store.VacantTruthful)
      (fun _ _ _ hI hg hs => Traced.step_vacantTruthful hI hg hs) hrun
      ⟨PageStore.slotsOk_openAt path recs, PageStore.vacantTruthful_openAt path hrecs⟩).2
  · exact (Traced.placeStep_step h).untruthful hloads (Traced.not_evicts_of_loads hloads) hplace hidx

/-- With no place configured, a page is loaded at place 0 and evicted, and another one loaded: place 0 is listed,
and the page lies at place 1. -/
theorem vacantTruthful_of_run_evicted : ∃ s₁ s₂ s₃ : Traced IdxKey IdxPage,
    (Traced.start ["heap"] 0 exampleFiles).step (K := IdxKey) .halving (.fetch firstPage false .none) = .ok s₁ ∧
    s₁.step (K := IdxKey) .halving (.evict 1 (.id IdxKey)) = .ok s₂ ∧
    s₂.step (K := IdxKey) .halving (.fetch secondPage false .none) = .ok s₃ ∧
    s₃.store.vacantPages = [0] ∧ s₃.store.placeFor secondPage = some 1 ∧ s₃.store.VacantTruthful := by
  have hfirst : (Traced.start ["heap"] 0 exampleFiles : Traced IdxKey IdxPage).step (K := IdxKey) .halving
      (.fetch firstPage false .none) = .ok _ :=
    Traced.step_fetch (PageStore.fetch_load _ firstPage rfl (loadFromDisk_example _ _)).1
  obtain ⟨s₂, hevict, hnone, hfiles, hvacant, hpages⟩ : ∃ s₂, Traced.step (K := IdxKey) .halving
      { Traced.start ["heap"] 0 exampleFiles with
        store := (PageStore.openAt ["heap"] 0 : PageStore IdxKey IdxPage).addPage firstPage (pageOf 0) }
      (.evict 1 (.id IdxKey)) = .ok s₂ ∧ s₂.store.pageMap.lookup secondPage = none ∧ s₂.files = exampleFiles ∧
        s₂.store.vacantPages = [0] ∧ s₂.store.pages.length = 1 :=
    ⟨_, rfl, rfl, rfl, rfl, rfl⟩
  have hload := PageStore.fetch_load s₂.store secondPage hnone (loadFromDisk_example s₂.store secondPage)
  rw [← hfiles] at hload
  have hsecond := @Traced.step_fetch _ _ _ _ _ _ _ .halving _ _ _ _ _ hload.1
  have hfetched : Traced.ListKeepingRun IdxKey .halving ["heap"] 0 exampleFiles _ :=
    (Reaches.refl _).snoc (.fetch firstPage false .none)
      ⟨fun _ place hplace => absurd hplace List.not_mem_nil, fun h => h.elim⟩ hfirst
  have hrun := (hfetched.snoc (.evict 1 (.id IdxKey)) ⟨fun h => h.elim, fun _ key cached hcached => ?_⟩ hevict).snoc
    (.fetch secondPage false .none) ⟨fun _ place hplace => ?_, fun h => h.elim⟩ hsecond
  · refine ⟨_, _, _, hfirst, hevict, hsecond, hvacant, ?_, (vacantTruthful_of_run (by decide) hrun).1⟩
    rw [PageStore.placeFor_eq_some]
    exact ⟨s₂.store.freshEntry, AList.lookup_insert _, hpages⟩
  · -- the only page cached lies at place 0
    obtain rfl | hne := eq_or_ne key firstPage
    · cases hcached
      decide
    · exact absurd (hcached.symm.trans (AList.lookup_insert_ne hne)) (by simp [PageStore.openAt, Traced.start])
  · rw [hvacant] at hplace
    rw [List.mem_singleton.mp hplace, hpages]
    decide

/-- The first page loaded into a store configured for four places lies at place 0, which stays listed. -/
theorem vacantPages_lists_used_place :
    ∃ s, exampleStart.step (K := IdxKey) .halving (.fetch firstPage false .none) = .ok s ∧
    ¬s.store.VacantTruthful := by
  refine ⟨_, Traced.step_fetch (exampleStart.store.fetch_load firstPage rfl (loadFromDisk_example _ _)).1, ?_⟩
  intro h
  exact h.unused 0 (by decide) firstPage _ rfl rfl

end Kobzar
