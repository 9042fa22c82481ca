import Kobzar.PageStore.Eviction
import Kobzar.PageStore.Blocks

/-!
# Places in the cache

What `fetch` does, said once (`fetch_spec`): it hits the cache, fails with the store unchanged, or adds the page it
loads at the end of the cache. From this, each cached page has a place of its own (`SlotsOk`).
-/

namespace Kobzar

/-- Files only appear; the contents of those already there stay. -/
def Files.Extends (files files' : Files) : Prop := ∀ path bytes, files path = some bytes → files' path = some bytes

theorem Files.Extends.refl (files : Files) : files.Extends files := fun _ _ h => h

namespace PageStore

variable {K B P : Type} [KeyExt K B] [KeyExt B B] [Pod P]

/-- The page that the store would load for a key from the files as they are. -/
def onDisk (store : PageStore B P) (files : Files) (key : B) : Option P :=
  match files (store.pagePath key) with
  | some bytes => if Pod.size P ≤ bytes.length then some (Pod.ofBytes (block (Pod.size P) 0 bytes)) else none
  | none => none

/-- A page on disk stays as it is when files are added. -/
theorem onDisk_of_extends {store store' : PageStore B P} {files files' : Files} {key : B} {page : P}
    (hf : files.Extends files') (hpath : store'.path = store.path) (h : store.onDisk files key = some page) :
    store'.onDisk files' key = some page := by
  unfold onDisk at h ⊢
  have hsame : store'.pagePath key = store.pagePath key := by rw [pagePath, pagePath, hpath]
  cases hbytes : files (store.pagePath key) with
  | none =>
    rw [hbytes] at h
    cases h
  | some bytes =>
    rw [hbytes] at h
    rw [hsame, hf _ _ hbytes]
    exact h

/-- Opening a file changes no file that is there, and gives the contents of the file. -/
theorem openFile_spec {files files' : Files} {faults : Faults} {path : Path} {create : Bool}
    {r : Except IoError (List U8)} (h : openFile files faults path create = (files', r)) :
    files.Extends files' ∧ ∀ bytes, r = .ok bytes → files' path = some bytes := by
  unfold openFile at h
  cases hfault : faults.onOpen with
  | some e =>
    rw [hfault] at h
    cases h
    exact ⟨Files.Extends.refl _, fun bytes hb => by cases hb⟩
  | none =>
    rw [hfault] at h
    cases hfile : files path with
    | some bytes =>
      rw [hfile] at h
      cases h
      refine ⟨Files.Extends.refl _, ?_⟩
      intro bytes' hb
      cases hb
      exact hfile
    | none =>
      rw [hfile] at h
      cases create with
      | false =>
        cases h
        exact ⟨Files.Extends.refl _, fun bytes hb => by cases hb⟩
      | true =>
        cases h
        refine ⟨fun p bytes hp => ?_, fun bytes hb => ?_⟩
        · have hne : p ≠ path := by
            rintro rfl
            rw [hfile] at hp
            cases hp
          rwa [Function.update_of_ne hne]
        · cases hb
          exact Function.update_self ..

/-- Loading a page changes no file that is there, and a page that is loaded is the one on disk. -/
theorem loadFromDisk_spec {store : PageStore B P} {files files' : Files} {faults : Faults} {key : B} {create : Bool}
    {r : Except PageReadError P} (h : store.loadFromDisk files faults key create = (files', r)) :
    files.Extends files' ∧ ∀ page, r = .ok page → store.onDisk files' key = some page := by
  unfold loadFromDisk at h
  simp only at h
  cases hopen : openFile files faults (store.path ++ [KeyExt.filename key]) create with
  | mk files₁ r₁ =>
    obtain ⟨hext, hcontents⟩ := openFile_spec hopen
    rw [hopen] at h
    cases r₁ with
    | error e =>
      cases h
      exact ⟨hext, fun page hp => by cases hp⟩
    | ok bytes =>
      simp only [readExact] at h
      cases hfault : faults.onRead with
      | some e =>
        rw [hfault] at h
        cases h
        exact ⟨hext, fun page hp => by cases hp⟩
      | none =>
        rw [hfault] at h
        by_cases hlen : Pod.size P ≤ bytes.length
        · simp only [if_pos hlen, List.length_take, Nat.min_eq_left hlen, ne_eq, not_true_eq_false, if_false] at h
          cases h
          refine ⟨hext, ?_⟩
          intro page hp
          cases hp
          have hfile := hcontents bytes rfl
          simp [onDisk, pagePath, hfile, hlen, block]
        · simp only [if_neg hlen] at h
          cases h
          exact ⟨hext, fun page hp => by cases hp⟩

variable [DecidableEq B]

/-- What a call of `fetch` that finds the page leaves: the page is in the cache at the place reported, either where
it was or just loaded from disk at the end; every other page stays where it was. -/
structure Fetched (store : PageStore B P) (files : Files) (key : B) (cached : CacheMeta) (store' : PageStore B P)
    (files' : Files) : Prop where
  lookup_self : store'.pageMap.lookup key = some cached
  lookup_other : ∀ key', key' ≠ key → store'.pageMap.lookup key' = store.pageMap.lookup key'
  path_eq : store'.path = store.path
  extends_files : files.Extends files'
  place : (∃ before, store.pageMap.lookup key = some before ∧ cached.idx = before.idx ∧
    store'.pages = store.pages) ∨ (store.pageMap.lookup key = none ∧ cached.idx = store.pages.length ∧
      ∃ page, store'.pages = store.pages ++ [page] ∧ store.onDisk files' key = some page)

/-- The entry of a page just loaded into a store. -/
def freshEntry (store : PageStore B P) : CacheMeta :=
  { idx := store.pages.length, dirty := false, lastAccessed := RingInline.new store.lastGen }

/-- A page in the cache is found there. -/
theorem fetch_hit {store : PageStore B P} {itemKey : K} {cached : CacheMeta} (files : Files) (faults : Faults)
    (create : Bool) (h : store.pageMap.lookup (KeyExt.pageBound itemKey) = some cached) :
    ∃ store', store.fetch files faults itemKey create = .ok ⟨store', files, .ok (cached.touch store.lastGen)⟩ ∧
      store.Fetched files (KeyExt.pageBound itemKey) (cached.touch store.lastGen) store' files := by
  refine ⟨{ store with
    pageMap := store.pageMap.insert (KeyExt.pageBound itemKey) (cached.touch store.lastGen)
    lastGen := store.lastGen + 1 }, by simp [fetch, touch, h, getCached], ?_⟩
  exact {
    lookup_self := AList.lookup_insert _
    lookup_other := fun key' hne => AList.lookup_insert_ne hne
    path_eq := rfl
    extends_files := Files.Extends.refl _
    place := Or.inl ⟨cached, h, rfl, rfl⟩ }

/-- A page that cannot be loaded is not found, and the store is as it was. -/
theorem fetch_fail {store : PageStore B P} {itemKey : K} {files files' : Files} {faults : Faults} {create : Bool}
    {e : PageReadError} (h : store.pageMap.lookup (KeyExt.pageBound itemKey) = none)
    (hload : store.loadFromDisk files faults (KeyExt.pageBound itemKey) create = (files', .error e)) :
    store.fetch files faults itemKey create = .ok ⟨store, files', .error e⟩ := by
  simp [fetch, touch, h, hload, pure, Except.pure]

/-- A page that is not in the cache is loaded, and added at the end. -/
theorem fetch_load (store : PageStore B P) (itemKey : K) {files files' : Files} {faults : Faults} {create : Bool}
    {page : P} (h : store.pageMap.lookup (KeyExt.pageBound itemKey) = none)
    (hload : store.loadFromDisk files faults (KeyExt.pageBound itemKey) create = (files', .ok page)) :
    store.fetch files faults itemKey create =
        .ok ⟨store.addPage (KeyExt.pageBound itemKey) page, files', .ok store.freshEntry⟩ ∧
      store.Fetched files (KeyExt.pageBound itemKey) store.freshEntry (store.addPage (KeyExt.pageBound itemKey) page)
        files' := by
  obtain ⟨hext, hdisk⟩ := loadFromDisk_spec hload
  constructor
  · simp [fetch, touch, h, hload, getCached, addPage, freshEntry, pure, Except.pure]
  · exact {
      lookup_self := AList.lookup_insert _
      lookup_other := fun key' hne => AList.lookup_insert_ne hne
      path_eq := rfl
      extends_files := hext
      place := Or.inr ⟨h, rfl, page, rfl, hdisk page rfl⟩ }

/-- What `fetch` does: it ends without a panic, and either finds the page or fails with the store as it was. -/
theorem fetch_spec (store : PageStore B P) (files : Files) (faults : Faults) (itemKey : K) (create : Bool) :
    ∃ after, store.fetch files faults itemKey create = .ok after ∧
      match after.result with
      | .ok cached => store.Fetched files (KeyExt.pageBound itemKey) cached after.store after.files
      | .error _ => after.store = store ∧ store.pageMap.lookup (KeyExt.pageBound itemKey) = none ∧
        files.Extends after.files := by
  cases hlookup : store.pageMap.lookup (KeyExt.pageBound itemKey) with
  | some cached =>
    obtain ⟨store', hrun, hf⟩ := fetch_hit files faults create hlookup
    exact ⟨_, hrun, hf⟩
  | none =>
    cases hload : store.loadFromDisk files faults (KeyExt.pageBound itemKey) create with
    | mk files' r =>
      cases r with
      | error e => exact ⟨_, fetch_fail hlookup hload, rfl, rfl, (loadFromDisk_spec hload).1⟩
      | ok page =>
        obtain ⟨hrun, hf⟩ := store.fetch_load itemKey hlookup hload
        exact ⟨_, hrun, hf⟩

/-- Each cached page has a place of its own within the cache. -/
structure SlotsOk (store : PageStore B P) : Prop where
  in_range : ∀ key cached, store.pageMap.lookup key = some cached → cached.idx < store.pages.length
  distinct : ∀ key key' cached cached', store.pageMap.lookup key = some cached →
    store.pageMap.lookup key' = some cached' → cached.idx = cached'.idx → key = key'

omit [KeyExt B B] [Pod P] in
/-- A new store has no cached page. -/
theorem slotsOk_openAt (path : Path) (recs : Nat) : (openAt path recs : PageStore B P).SlotsOk where
  in_range key cached h := by simp [openAt] at h
  distinct key key' cached cached' h := by simp [openAt] at h

omit [KeyExt B B] [Pod P] in
/-- Pages that keep their places, in a cache that does not shrink, keep a place of their own. -/
theorem SlotsOk.of_places {store store' : PageStore B P} (hok : store.SlotsOk)
    (hplaces : ∀ key cached', store'.pageMap.lookup key = some cached' →
      ∃ cached, store.pageMap.lookup key = some cached ∧ cached.idx = cached'.idx)
    (hlen : store.pages.length ≤ store'.pages.length) : store'.SlotsOk where
  in_range key cached' h := by
    obtain ⟨cached, hcached, hidx⟩ := hplaces key cached' h
    have := hok.in_range key cached hcached
    omega
  distinct key key' c' c'' h h' heq := by
    obtain ⟨c₁, hc₁, hidx₁⟩ := hplaces key c' h
    obtain ⟨c₂, hc₂, hidx₂⟩ := hplaces key' c'' h'
    exact hok.distinct key key' c₁ c₂ hc₁ hc₂ (by omega)

/-- A page that was found has a place of its own. -/
theorem Fetched.slotsOk {store store' : PageStore B P} {files files' : Files} {key : B} {cached : CacheMeta}
    (hf : store.Fetched files key cached store' files') (hok : store.SlotsOk) : store'.SlotsOk := by
  rcases hf.place with ⟨before, hbefore, hidx, hpages⟩ | ⟨hnone, hidx, page, hpages, -⟩
  · refine hok.of_places (fun key' c' hc' => ?_) (Nat.le_of_eq (congrArg List.length hpages.symm))
    by_cases hkey : key' = key
    · subst hkey
      rw [hf.lookup_self] at hc'
      cases hc'
      exact ⟨before, hbefore, hidx.symm⟩
    · rw [hf.lookup_other key' hkey] at hc'
      exact ⟨c', hc', rfl⟩
  · have hlen : store'.pages.length = store.pages.length + 1 := by rw [hpages, List.length_append, List.length_singleton]
    have hold : ∀ key' c', key' ≠ key → store'.pageMap.lookup key' = some c' → c'.idx < store.pages.length := by
      intro key' c' hne hc'
      rw [hf.lookup_other key' hne] at hc'
      exact hok.in_range key' c' hc'
    refine ⟨fun key' c' hc' => ?_, fun k₁ k₂ c₁ c₂ h₁ h₂ heq => ?_⟩
    · by_cases hkey : key' = key
      · subst hkey
        rw [hf.lookup_self] at hc'
        cases hc'
        omega
      · have := hold key' c' hkey hc'
        omega
    · by_cases hk₁ : k₁ = key <;> by_cases hk₂ : k₂ = key
      · rw [hk₁, hk₂]
      · subst hk₁
        rw [hf.lookup_self] at h₁
        cases h₁
        have := hold k₂ c₂ hk₂ h₂
        omega
      · subst hk₂
        rw [hf.lookup_self] at h₂
        cases h₂
        have := hold k₁ c₁ hk₁ h₁
        omega
      · rw [hf.lookup_other k₁ hk₁] at h₁
        rw [hf.lookup_other k₂ hk₂] at h₂
        exact hok.distinct k₁ k₂ c₁ c₂ h₁ h₂ heq

end PageStore

end Kobzar
