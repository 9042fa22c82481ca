import Kobzar.Library.Runs
import Kobzar.PageStore.Slots

/-!
# Updates of cached pages

To its callers a page store is a map from keys to pages (`contents`): a cached page is what the cache holds, any
other page is what would be loaded. Fetching does not change the map and writing through a page that was handed out
changes it at one key, but an eviction drops pages without writing them back. What callers wrote stays in the map
through a run whose evictions spare the pages that differ from their files (`contents_of_left`).
-/

namespace Kobzar

open Search Runs

namespace PageStore

variable {K B P : Type} [DecidableEq B] [KeyExt K B] [KeyExt B B] [Pod P]

/-- The page that the store stands for at a key: the cached one, or else the one on disk. -/
def contents (store : PageStore B P) (files : Files) (key : B) : Option P :=
  match store.pageMap.lookup key with
  | some cached => store.pages[cached.idx]?
  | none => store.onDisk files key

theorem contents_cached {store : PageStore B P} {files : Files} {key : B} {cached : CacheMeta}
    (h : store.pageMap.lookup key = some cached) : store.contents files key = store.pages[cached.idx]? := by
  rw [contents, h]

theorem contents_not_cached {store : PageStore B P} {files : Files} {key : B} (h : store.pageMap.lookup key = none) :
    store.contents files key = store.onDisk files key := by
  rw [contents, h]

omit [KeyExt K B] in
/-- What the store stands for stays when files are added. -/
theorem contents_of_extends {store : PageStore B P} {files files' : Files} (hf : files.Extends files')
    {key : B} {page : P} (h : store.contents files key = some page) : store.contents files' key = some page := by
  cases hlookup : store.pageMap.lookup key with
  | some cached => rwa [contents_cached hlookup] at h ⊢
  | none =>
    rw [contents_not_cached hlookup] at h ⊢
    exact onDisk_of_extends hf rfl h

/-! ## Handing out a page -/

/-- A page that was found is still found when its entry is marked as dirty. -/
theorem Fetched.markDirty {store store' : PageStore B P} {files files' : Files} {key : B} {cached : CacheMeta}
    (hf : store.Fetched files key cached store' files') :
    store.Fetched files key { cached with dirty := true }
      { store' with pageMap := store'.pageMap.insert key { cached with dirty := true } } files' where
  lookup_self := AList.lookup_insert _
  lookup_other key' hne := by rw [AList.lookup_insert_ne hne, hf.lookup_other key' hne]
  path_eq := hf.path_eq
  extends_files := hf.extends_files
  place := hf.place

omit [KeyExt K B] in
/-- Finding a page leaves the pages that were there at their places. -/
theorem Fetched.getElem?_pages {store store' : PageStore B P} {files files' : Files} {key : B} {cached : CacheMeta}
    (hf : store.Fetched files key cached store' files') {i : Nat} (hi : i < store.pages.length) :
    store'.pages[i]? = store.pages[i]? := by
  rcases hf.place with ⟨-, -, -, hpages⟩ | ⟨-, -, added, hpages, -⟩
  · rw [hpages]
  · rw [hpages, List.getElem?_append_left hi]

/-- Finding a page changes nothing the store stands for. -/
theorem Fetched.contents_eq {store store' : PageStore B P} {files files' : Files} {key : B} {cached : CacheMeta}
    (hf : store.Fetched files key cached store' files') (hok : store.SlotsOk) {key' : B} {page : P}
    (h : store.contents files key' = some page) : store'.contents files' key' = some page := by
  by_cases hkey : key' = key
  · subst hkey
    rw [contents_cached hf.lookup_self]
    rcases hf.place with ⟨before, hbefore, hidx, hsame⟩ | ⟨hnone, hidx, added, hadded, hdisk⟩
    · rw [contents_cached hbefore] at h
      rw [hidx, hsame, h]
    · rw [contents_not_cached hnone] at h
      have hadd := onDisk_of_extends hf.extends_files rfl h
      rw [hdisk] at hadd
      rw [hadded, hidx, List.getElem?_concat_length, hadd]
  · cases hlookup : store.pageMap.lookup key' with
    | some c =>
      have hi := hok.in_range key' c hlookup
      rw [contents_cached hlookup] at h
      rw [contents_cached ((hf.lookup_other key' hkey).trans hlookup), hf.getElem?_pages hi, h]
    | none =>
      rw [contents_not_cached hlookup] at h
      rw [contents_not_cached ((hf.lookup_other key' hkey).trans hlookup)]
      exact onDisk_of_extends hf.extends_files hf.path_eq h

/-- What handing out a page makes of what fetching it did: the same error, or the page marked as dirty. -/
inductive HandsOut (itemKey : K) (fetched : After B P CacheMeta) : After B P (PageRef P) → Prop
  | refused {e : PageReadError} (failed : fetched.result = .error e) :
    HandsOut itemKey fetched ⟨fetched.store, fetched.files, .error e⟩
  | marked {cached : CacheMeta} {page : P} (found : fetched.result = .ok cached)
      (there : fetched.store.pageMap.lookup (KeyExt.pageBound itemKey) = some cached) :
    HandsOut itemKey fetched ⟨{ fetched.store with
      pageMap := fetched.store.pageMap.insert (KeyExt.pageBound itemKey) { cached with dirty := true } }, fetched.files,
      .ok ⟨cached.idx, page⟩⟩

/-- A call that hands out a page fetches it first. -/
theorem handsOut_of_itemPageMut {store : PageStore B P} {files : Files} {faults : Faults} {itemKey : K} {create : Bool}
    {after : After B P (PageRef P)} (h : store.itemPageMut files faults itemKey create = .ok after) :
    ∃ fetched, store.fetch files faults itemKey create = .ok fetched ∧ HandsOut itemKey fetched after := by
  obtain ⟨⟨store', files', result⟩, hfetch, hcase⟩ := store.fetch_spec files faults itemKey create
  refine ⟨_, hfetch, ?_⟩
  simp only [itemPageMut, hfetch, ok_bind] at h
  cases result with
  | error e =>
    cases h
    exact .refused rfl
  | ok cached =>
    obtain ⟨page, -, hafter⟩ := bind_eq_ok.mp h
    cases hafter
    exact .marked rfl hcase.lookup_self

/-- What `itemPageMut` does: it ends without a panic, and either hands out the page the store stands for, now
cached, or fails with the store as it was. -/
theorem itemPageMut_spec {store : PageStore B P} (hok : store.SlotsOk) (files : Files) (faults : Faults) (itemKey : K)
    (create : Bool) : ∃ after, store.itemPageMut files faults itemKey create = .ok after ∧
      match after.result with
      | .ok ref => ∃ cached, store.Fetched files (KeyExt.pageBound itemKey) cached after.store after.files ∧
        cached.dirty = true ∧ ref.idx = cached.idx ∧ after.store.pages[ref.idx]? = some ref.page
      | .error _ => after.store = store ∧ files.Extends after.files := by
  obtain ⟨after, hfetch, hcase⟩ := store.fetch_spec files faults itemKey create
  obtain ⟨store', files', result⟩ := after
  cases result with
  | error e =>
    refine ⟨⟨store', files', .error e⟩, ?_, hcase.1, hcase.2.2⟩
    simp [itemPageMut, hfetch, pure, Except.pure]
  | ok cached =>
    simp only at hcase
    have hf := hcase.markDirty
    have hidx : cached.idx < store'.pages.length := hcase.slotsOk hok |>.in_range _ _ hcase.lookup_self
    refine ⟨⟨{ store' with
        pageMap := store'.pageMap.insert (KeyExt.pageBound itemKey) { cached with dirty := true } },
      files', .ok ⟨cached.idx, store'.pages[cached.idx]⟩⟩, ?_, _, hf, rfl, rfl, List.getElem?_eq_getElem hidx⟩
    simp [itemPageMut, hfetch, index_of_lt hidx, pure, Except.pure]

/-- What a call that hands out a page leaves: the page is cached and dirty, at the place handed out. -/
theorem itemPageMut_ok {store : PageStore B P} (hok : store.SlotsOk) {files : Files} {faults : Faults} {itemKey : K}
    {create : Bool} {after : After B P (PageRef P)} (h : store.itemPageMut files faults itemKey create = .ok after)
    {ref : PageRef P} (href : after.result = .ok ref) :
    ∃ cached, store.Fetched files (KeyExt.pageBound itemKey) cached after.store after.files ∧ cached.dirty = true ∧
      ref.idx = cached.idx ∧ after.store.pages[ref.idx]? = some ref.page := by
  obtain ⟨after', h', hcase⟩ := itemPageMut_spec hok files faults itemKey create
  rw [h] at h'
  cases h'
  rwa [href] at hcase

/-- A page that is not in the cache and can be loaded is handed out as it is on disk, at the end of the cache. -/
theorem itemPageMut_load (store : PageStore B P) (itemKey : K) {files files' : Files} {faults : Faults} {create : Bool}
    {page : P} (h : store.pageMap.lookup (KeyExt.pageBound itemKey) = none)
    (hload : store.loadFromDisk files faults (KeyExt.pageBound itemKey) create = (files', .ok page)) :
    store.itemPageMut files faults itemKey create = .ok ⟨{ store with
        pages := store.pages ++ [page]
        pageMap := (store.pageMap.insert (KeyExt.pageBound itemKey) store.freshEntry).insert (KeyExt.pageBound itemKey)
          { store.freshEntry with dirty := true }
        lastGen := store.lastGen + 1 }, files', .ok ⟨store.pages.length, page⟩⟩ := by
  have hf := (store.fetch_load itemKey h hload).1
  have hidx : store.freshEntry.idx < (store.pages ++ [page]).length := by simp [freshEntry]
  simp only [itemPageMut, hf, ok_bind, addPage, index_of_lt hidx]
  simp [freshEntry, pure, Except.pure]

omit [KeyExt K B] [KeyExt B B] [Pod P] in
/-- Writing through a page that was handed out keeps the places. -/
theorem slotsOk_writePage {store : PageStore B P} (hok : store.SlotsOk) (idx : Nat) (page : P) :
    (store.writePage idx page).SlotsOk :=
  hok.of_places (fun _ cached h => ⟨cached, h, rfl⟩) (by simp [writePage])

omit [KeyExt K B] in
/-- Writing through a cached page changes what the store stands for at its key, and at no other. -/
theorem contents_writePage {store : PageStore B P} (hok : store.SlotsOk) {files : Files} {key : B} {cached : CacheMeta}
    (h : store.pageMap.lookup key = some cached) (page : P) (key' : B) :
    (store.writePage cached.idx page).contents files key' =
      if key' = key then some page else store.contents files key' := by
  have hi := hok.in_range key cached h
  by_cases hkey : key' = key
  · subst hkey
    have h' : (store.writePage cached.idx page).pageMap.lookup key' = some cached := h
    rw [if_pos rfl, contents_cached h']
    simp [writePage, hi]
  · rw [if_neg hkey]
    cases hlookup : store.pageMap.lookup key' with
    | some c =>
      have hne : cached.idx ≠ c.idx := fun heq => hkey (hok.distinct key' key c cached hlookup h heq.symm)
      have hlookup' : (store.writePage cached.idx page).pageMap.lookup key' = some c := hlookup
      rw [contents_cached hlookup', contents_cached hlookup]
      simp [writePage, hne]
    | none =>
      have hlookup' : (store.writePage cached.idx page).pageMap.lookup key' = none := hlookup
      rw [contents_not_cached hlookup', contents_not_cached hlookup]
      rfl

/-! ## Eviction -/

/-- An eviction of `count` pages spares the pages that differ from their files: each of them has at least as many
cached pages scored below it as are evicted. -/
def SparesChanged (store : PageStore B P) (files : Files) (count : Nat) : Prop :=
  ∀ key cached, store.pageMap.lookup key = some cached → store.pages[cached.idx]? ≠ store.onDisk files key →
    max count 1 ≤ (store.lowerScored (cached.scoreAt store.lastGen)).length

omit [KeyExt K B] [KeyExt B B] [Pod P] in
/-- Cached pages keep their places through an eviction. -/
theorem slotsOk_evict {search : BinarySearch} {store store' : PageStore B P} {count : Nat} {order : IterOrder B}
    (hok : store.SlotsOk) (h : store.evict search count order = .ok store') : store'.SlotsOk := by
  obtain ⟨victims, pageMap, -, hlookup, hpages, -, -, -⟩ := evict_spec h
  refine hok.of_places (fun key c' hc' => ?_) (Nat.le_of_eq (congrArg List.length hpages.symm))
  rw [hlookup key] at hc'
  split at hc'
  · cases hc'
  · obtain ⟨c, hc, rfl⟩ := Option.map_eq_some_iff.mp hc'
    exact ⟨c, hc, rfl⟩

omit [KeyExt K B] in
/-- An eviction that spares the changed pages changes nothing the store stands for. -/
theorem contents_evict {search : BinarySearch} {store store' : PageStore B P} {files : Files} {count : Nat}
    {order : IterOrder B} (hspare : store.SparesChanged files count)
    (h : store.evict search count order = .ok store') (key : B) :
    store'.contents files key = store.contents files key := by
  obtain ⟨victims, pageMap, hI, hlookup, hpages, hpath, -, -⟩ := evict_spec h
  have hdisk : store'.onDisk files key = store.onDisk files key := by rw [onDisk, onDisk, pagePath, pagePath, hpath]
  have hkey := hlookup key
  cases hcached : store.pageMap.lookup key with
  | none =>
    rw [hcached, Option.map_none, ite_self] at hkey
    rw [contents_not_cached hkey, contents_not_cached hcached, hdisk]
  | some cached =>
    rw [hcached] at hkey
    by_cases hvictim : key ∈ victims.map (·.key)
    · -- an evicted page is one that does not differ from its file
      rw [if_pos hvictim] at hkey
      rw [contents_not_cached hkey, contents_cached hcached, hdisk]
      by_contra hne
      obtain ⟨x, hx, rfl⟩ := List.mem_map.mp hvictim
      obtain ⟨-, c, hc, -, hscore⟩ := hI.chosen x hx
      rw [hcached] at hc
      cases hc
      have hfew := lowerScored_lt_of_victim hI hx
      have hmany := hspare x.key cached hcached (fun heq => hne heq.symm)
      rw [hscore] at hfew
      omega
    · rw [if_neg hvictim] at hkey
      have hkey' : store'.pageMap.lookup key = some cached.normalize := hkey
      rw [contents_cached hkey', contents_cached hcached, hpages]
      rfl

end PageStore

/-! ## Runs -/

/-- A store and its files, with the page that callers last left at each key. -/
structure Traced (B P : Type) where
  store : PageStore B P
  files : Files
  left : B → Option P

/-- A call of a page store; a page that is handed out is then changed. -/
inductive StoreOp (K B P : Type) where
  | fetch (key : K) (create : Bool) (faults : Faults)
  | itemPageMut (key : K) (create : Bool) (faults : Faults) (change : P → P)
  | evict (count : Nat) (order : IterOrder B)

namespace Traced

variable {K B P : Type} [DecidableEq B] [KeyExt K B] [KeyExt B B] [Pod P]

/-- A new store, before any call. -/
def start (path : Path) (recs : Nat) (files : Files) : Traced B P :=
  { store := PageStore.openAt path recs, files := files, left := fun _ => none }

/-- One call. -/
def step (search : BinarySearch) (s : Traced B P) : StoreOp K B P → Outcome (Traced B P)
  | .fetch key create faults => do
    let after ← s.store.fetch s.files faults key create
    return { s with store := after.store, files := after.files }
  | .itemPageMut key create faults change => do
    let after ← s.store.itemPageMut s.files faults key create
    match after.result with
    | .error _ => return { s with store := after.store, files := after.files }
    | .ok ref => return {
        store := after.store.writePage ref.idx (change ref.page)
        files := after.files
        left := Function.update s.left (KeyExt.pageBound key) (some (change ref.page)) }
  | .evict count order => do
    let store ← s.store.evict search count order
    return { s with store := store }

theorem step_fetch {search : BinarySearch} {s : Traced B P} {key : K} {create : Bool} {faults : Faults}
    {after : After B P CacheMeta} (h : s.store.fetch s.files faults key create = .ok after) :
    s.step search (.fetch key create faults) = .ok { s with store := after.store, files := after.files } := by
  simp only [step, h, ok_bind]
  rfl

theorem step_itemPageMut (search : BinarySearch) (s : Traced B P) {key : K} {create : Bool} {faults : Faults}
    (change : P → P) {store' : PageStore B P} {files' : Files} {ref : PageRef P}
    (h : s.store.itemPageMut s.files faults key create = .ok ⟨store', files', .ok ref⟩) :
    s.step search (.itemPageMut key create faults change) = .ok {
      store := store'.writePage ref.idx (change ref.page)
      files := files'
      left := Function.update s.left (KeyExt.pageBound key) (some (change ref.page)) } := by
  simp only [step, h, ok_bind]
  rfl

/-- What a call runs on the store, and what it leaves. -/
inductive Ran (search : BinarySearch) (s : Traced B P) : StoreOp K B P → Traced B P → Prop
  | fetches {key : K} {create : Bool} {faults : Faults} {after : After B P CacheMeta}
      (run : s.store.fetch s.files faults key create = .ok after) :
    Ran search s (.fetch key create faults) { s with store := after.store, files := after.files }
  | refused {key : K} {create : Bool} {faults : Faults} {change : P → P} {store' : PageStore B P} {files' : Files}
      {e : PageReadError} (run : s.store.itemPageMut s.files faults key create = .ok ⟨store', files', .error e⟩) :
    Ran search s (.itemPageMut key create faults change) { s with store := store', files := files' }
  | writes {key : K} {create : Bool} {faults : Faults} {change : P → P} {store' : PageStore B P} {files' : Files}
      {ref : PageRef P} (run : s.store.itemPageMut s.files faults key create = .ok ⟨store', files', .ok ref⟩) :
    Ran search s (.itemPageMut key create faults change) {
      store := store'.writePage ref.idx (change ref.page)
      files := files'
      left := Function.update s.left (KeyExt.pageBound key) (some (change ref.page)) }
  | evicts {count : Nat} {order : IterOrder B} {store' : PageStore B P}
    (run : s.store.evict search count order = .ok store') :
    Ran search s (.evict count order) { s with store := store' }

/-- A call that ends ran one of these. -/
theorem ran_of_step {search : BinarySearch} {s t : Traced B P} {op : StoreOp K B P} (h : s.step search op = .ok t) :
    s.Ran search op t := by
  cases op with
  | fetch key create faults =>
    obtain ⟨after, hrun, hafter⟩ := bind_eq_ok.mp h
    cases hafter
    exact .fetches hrun
  | itemPageMut key create faults change =>
    obtain ⟨⟨store', files', result⟩, hrun, hafter⟩ := bind_eq_ok.mp h
    cases result with
    | error e =>
      cases hafter
      exact .refused hrun
    | ok ref =>
      cases hafter
      exact .writes hrun
  | evict count order =>
    obtain ⟨store', hevict, hstore⟩ := bind_eq_ok.mp h
    cases hstore
    exact .evicts hevict

/-- What a call does: it fails to load a page and leaves the store as it was, finds a page, hands one out that is
then written to, or evicts some. -/
inductive Does (search : BinarySearch) (s t : Traced B P) : StoreOp K B P → Prop
  | fails {op : StoreOp K B P} (store : t.store = s.store) (files : s.files.Extends t.files) (left : t.left = s.left) :
      Does search s t op
  | finds {key : K} {create : Bool} {faults : Faults} {cached : CacheMeta}
      (fetched : s.store.Fetched s.files (KeyExt.pageBound key) cached t.store t.files) (left : t.left = s.left) :
      Does search s t (.fetch key create faults)
  | handsOut {key : K} {create : Bool} {faults : Faults} {change : P → P} {store' : PageStore B P}
      {cached : CacheMeta} {page : P}
      (fetched : s.store.Fetched s.files (KeyExt.pageBound key) cached store' t.files)
      (stands : store'.pages[cached.idx]? = some page) (written : t.store = store'.writePage cached.idx (change page))
      (left : t.left = Function.update s.left (KeyExt.pageBound key) (some (change page))) :
      Does search s t (.itemPageMut key create faults change)
  | evicts {count : Nat} {order : IterOrder B} (evicted : s.store.evict search count order = .ok t.store)
      (files : t.files = s.files) (left : t.left = s.left) : Does search s t (.evict count order)

/-- A call that ends does one of these. -/
theorem does_of_step {search : BinarySearch} {s t : Traced B P} {op : StoreOp K B P} (hok : s.store.SlotsOk)
    (h : s.step search op = .ok t) : s.Does search t op := by
  cases ran_of_step h with
  | @fetches key create faults _ run =>
    obtain ⟨⟨store', files', result⟩, hrun, hcase⟩ := s.store.fetch_spec s.files faults key create
    cases hrun.symm.trans run
    cases result with
    | error e => exact .fails hcase.1 hcase.2.2 rfl
    | ok cached => exact .finds hcase rfl
  | @refused key create faults _ _ _ _ run =>
    obtain ⟨after, hrun, hcase⟩ := PageStore.itemPageMut_spec hok s.files faults key create
    cases hrun.symm.trans run
    exact .fails hcase.1 hcase.2 rfl
  | writes run =>
    obtain ⟨cached, hf, -, hidx, hpage⟩ := PageStore.itemPageMut_ok hok run rfl
    rw [hidx] at hpage
    refine .handsOut hf hpage ?_ rfl
    rw [hidx]
  | evicts run => exact .evicts run rfl rfl

/-- Every call keeps the cached pages at places of their own. -/
theorem step_slotsOk {search : BinarySearch} {s t : Traced B P} {op : StoreOp K B P} (hok : s.store.SlotsOk)
    (h : s.step search op = .ok t) : t.store.SlotsOk := by
  cases does_of_step hok h with
  | fails hstore => exact hstore ▸ hok
  | finds fetched => exact fetched.slotsOk hok
  | handsOut fetched stands written => exact written ▸ PageStore.slotsOk_writePage (fetched.slotsOk hok) _ _
  | evicts evicted => exact PageStore.slotsOk_evict hok evicted

/-- The call, if it is an eviction, spares the pages that differ from their files. -/
def Spares (s : Traced B P) : StoreOp K B P → Prop
  | .evict count _ => s.store.SparesChanged s.files count
  | _ => True

/-- What callers left at a key is what the store stands for there. -/
structure Kept (s : Traced B P) : Prop where
  slotsOk : s.store.SlotsOk
  contents_of_left : ∀ key page, s.left key = some page → s.store.contents s.files key = some page

/-- One call that spares the changed pages keeps what callers left. -/
theorem step_kept {search : BinarySearch} {s t : Traced B P} {op : StoreOp K B P} (hI : s.Kept) (hspare : s.Spares op)
    (h : s.step search op = .ok t) : t.Kept := by
  obtain ⟨hok, hkept⟩ := hI
  refine ⟨step_slotsOk hok h, ?_⟩
  intro k page hk
  cases does_of_step hok h with
  | fails hstore files left =>
    rw [left] at hk
    rw [hstore]
    exact PageStore.contents_of_extends files (hkept k page hk)
  | finds fetched left =>
    rw [left] at hk
    exact fetched.contents_eq hok (hkept k page hk)
  | @handsOut key _ _ _ _ _ _ fetched stands written left =>
    rw [written, PageStore.contents_writePage (fetched.slotsOk hok) fetched.lookup_self]
    rw [left] at hk
    by_cases hkey : k = KeyExt.pageBound key
    · subst hkey
      simpa using hk
    · rw [if_neg hkey]
      exact fetched.contents_eq hok (hkept k page (by simpa [hkey] using hk))
  | evicts evicted files left =>
    rw [left] at hk
    rw [files]
    exact (PageStore.contents_evict hspare evicted k).trans (hkept k page hk)

/-- A run of calls from a new store, whose evictions all spare the pages that differ from their files. -/
def SparingRun (K : Type) [KeyExt K B] (search : BinarySearch) (path : Path) (recs : Nat) (files : Files)
    (s : Traced B P) : Prop :=
  Reaches (fun s (op : StoreOp K B P) => s.Spares op) (fun s op t => s.step search op = .ok t) (start path recs files) s

/-- What callers left stays through such a run. -/
theorem kept_of_sparingRun {search : BinarySearch} {path : Path} {recs : Nat} {files : Files} {s : Traced B P}
    (h : SparingRun K search path recs files s) : s.Kept := by
  refine Reaches.inv Kept (fun s op t hI hg hs => step_kept hI hg hs) h ?_
  exact ⟨PageStore.slotsOk_openAt path recs, fun key page hk => by cases hk⟩

end Traced

/-- When no update of a cached page is lost: after any run of calls from a new store in which every eviction spares
the pages that differ from their files, the page that the next call hands out for a key is the page last left at
that key. -/
theorem itemPageMut_hands_out_left {K B P : Type} [DecidableEq B] [KeyExt K B] [KeyExt B B] [Pod P]
    (search : BinarySearch) (path : Path) (recs : Nat) (files : Files) {s : Traced B P}
    (hrun : s.SparingRun K search path recs files) (key : K)
    (create : Bool) (faults : Faults) {after : After B P (PageRef P)}
    (hcall : s.store.itemPageMut s.files faults key create = .ok after) {ref : PageRef P} (href : after.result = .ok ref)
    {page : P} (hleft : s.left (KeyExt.pageBound key) = some page) : ref.page = page := by
  obtain ⟨hok, hkept⟩ := Traced.kept_of_sparingRun hrun
  obtain ⟨cached, hf, -, hidx, hpage⟩ := PageStore.itemPageMut_ok hok hcall href
  have hcontents := hf.contents_eq hok (hkept _ _ hleft)
  rw [PageStore.contents_cached hf.lookup_self, ← hidx, hpage] at hcontents
  exact Option.some.inj hcontents

/-! ### Two pages of one index, over files of a page of zeros and a page of ones -/

/-- The page of one byte. -/
def pageOf (byte : U8) : IdxPage := IdxPage.ofBytes (List.replicate indexPageSize byte)

/-- A disk on which every file holds a page of zeros and a page of ones. -/
def exampleFiles : Files := fun _ => some (twoBlocks indexPageSize)

/-- A new store of index pages over that disk. -/
def exampleStart : Traced IdxKey IdxPage := Traced.start ["heap"] 4 exampleFiles

/-- Page 0 of the same index. -/
def firstPage : IdxKey := { secondPage with page := 0 }

/-- Hand out the second page of an index, and fill it with ones. -/
def fillSecondPage : StoreOp IdxKey IdxKey IdxPage := .itemPageMut secondPage false .none fun _ => pageOf 1

theorem loadFromDisk_example (store : PageStore IdxKey IdxPage) (key : IdxKey) :
    store.loadFromDisk exampleFiles .none key false = (exampleFiles, .ok (pageOf 0)) := by
  rw [PageStore.loadFromDisk_eq (twoBlocks indexPageSize) false rfl
    (by rw [twoBlocks_length]; exact Nat.le_mul_of_pos_left _ (by decide))]
  exact congrArg (fun bytes => (exampleFiles, Except.ok (IdxPage.ofBytes bytes))) (block_twoBlocks _).1

theorem onDisk_example (store : PageStore IdxKey IdxPage) (key : IdxKey) :
    store.onDisk exampleFiles key = some (pageOf 0) :=
  (PageStore.loadFromDisk_spec (loadFromDisk_example store key)).2 _ rfl

/-- The first page is fetched, the second filled with ones, and one page evicted: it is the first, which is as it
was on disk, and the second is handed out as it was left. -/
theorem itemPageMut_hands_out_left_example : ∃ s₁ s₂ s₃ after ref,
    exampleStart.step (K := IdxKey) .halving (.fetch firstPage false .none) = .ok s₁ ∧
    s₁.step .halving fillSecondPage = .ok s₂ ∧
      s₂.step (K := IdxKey) .halving (.evict 1 (.id IdxKey)) = .ok s₃ ∧
    s₃.store.itemPageMut s₃.files .none secondPage false = .ok after ∧ after.result = .ok ref ∧
      ref.page = pageOf 1 := by
  obtain ⟨s₁, hs₁⟩ : ∃ s₁ : Traced IdxKey IdxPage,
      s₁ = { exampleStart with store := exampleStart.store.addPage firstPage (pageOf 0), files := exampleFiles } :=
        ⟨_, rfl⟩
  have hfirst : exampleStart.step (K := IdxKey) .halving (.fetch firstPage false .none) = .ok s₁ := by
    rw [hs₁]
    exact Traced.step_fetch (exampleStart.store.fetch_load firstPage rfl (loadFromDisk_example _ _)).1
  subst hs₁
  have hfill := Traced.step_itemPageMut .halving
    { exampleStart with store := exampleStart.store.addPage firstPage (pageOf 0), files := exampleFiles }
      (fun _ => pageOf 1)
    (PageStore.itemPageMut_load _ secondPage rfl (loadFromDisk_example _ _))
  refine ⟨_, _, _, _, _, hfirst, hfill, rfl, rfl, rfl, ?_⟩
  refine itemPageMut_hands_out_left (K := IdxKey) .halving ["heap"] 4 exampleFiles
    ((((Reaches.refl _).snoc _ trivial hfirst).snoc _ trivial hfill).snoc (.evict 1 (.id IdxKey)) ?_ rfl)
    secondPage false .none rfl rfl rfl
  intro key cached hlookup hne
  have hkey : key ∈ [secondPage, firstPage] :=
    AList.mem_keys.mp (AList.lookup_isSome.mp (Option.isSome_iff_exists.mpr ⟨_, hlookup⟩))
  rcases List.mem_pair.mp hkey with rfl | rfl
  · cases hlookup
    decide
  · cases hlookup
    exact absurd (onDisk_example _ _).symm hne

/-- The second page is filled with ones and evicted, being the only one: the next call hands out zeros. -/
theorem evict_loses_update : ∃ s₁ s₂ after ref, exampleStart.step .halving fillSecondPage = .ok s₁ ∧
    s₁.step (K := IdxKey) .halving (.evict 1 (.id IdxKey)) = .ok s₂ ∧ s₂.left secondPage = some (pageOf 1) ∧
    s₂.store.itemPageMut s₂.files .none secondPage false = .ok after ∧ after.result = .ok ref ∧
    ref.page = pageOf 0 ∧ pageOf 0 ≠ pageOf 1 := by
  have hfirst := exampleStart.store.itemPageMut_load secondPage rfl (loadFromDisk_example _ _)
  refine ⟨_, _, _, _, Traced.step_itemPageMut _ _ (fun _ => pageOf 1) hfirst, rfl, rfl,
    PageStore.itemPageMut_load _ _ rfl (loadFromDisk_example _ _), rfl, rfl, ?_⟩
  intro h
  have hbytes := IdxPage.ofBytes_inj (by rw [List.length_replicate]) (by rw [List.length_replicate]) h
  exact absurd (congrArg List.head? hbytes) (by simp [indexPageSize])

end Kobzar
