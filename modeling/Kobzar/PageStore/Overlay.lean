import Kobzar.Library.Overlay
import Kobzar.PageStore.Updates

/-!
# The cache over the files

No method of the store writes to a file. So after any run of calls, with any evictions, a cached page is the page
of its file with the changes that callers made since it was loaded, and what they did before is gone
(`cached_page_of_run`).
-/

namespace Kobzar

open Search Overlay

/-- Files only appear, and empty; all others stay as they are. -/
structure Files.OnlyCreates (files files' : Files) : Prop where
  extends_files : files.Extends files'
  empty : ∀ path bytes, files' path = some bytes → files path = none → bytes = []

theorem Files.OnlyCreates.refl (files : Files) : files.OnlyCreates files where
  extends_files := .refl files
  empty path bytes h hnone := by
    rw [hnone] at h
    cases h

theorem Files.OnlyCreates.trans {files files' files'' : Files} (h : files.OnlyCreates files')
    (h' : files'.OnlyCreates files'') :
    files.OnlyCreates files'' where
  extends_files path bytes hb := h'.extends_files path bytes (h.extends_files path bytes hb)
  empty path bytes hb hnone := by
    cases hmid : files' path with
    | none => exact h'.empty path bytes hb hmid
    | some other =>
      rw [h'.extends_files path other hmid] at hb
      cases hb
      exact h.empty path bytes hmid hnone

/-- An empty file that was not there is created. -/
theorem Files.onlyCreates_update {files : Files} {path : Path} (hnone : files path = none) :
    files.OnlyCreates (Function.update files path (some [])) where
  extends_files other bytes h := by
    have hne : other ≠ path := by
      rintro rfl
      rw [hnone] at h
      cases h
    rwa [Function.update_of_ne hne]
  empty other bytes h hother := by
    by_cases heq : other = path
    · subst heq
      rw [Function.update_self] at h
      exact (Option.some.inj h).symm
    · rw [Function.update_of_ne heq, hother] at h
      cases h

/-- Opening a file creates one file at most. -/
theorem onlyCreates_openFile (files : Files) (faults : Faults) (path : Path) (create : Bool) :
    files.OnlyCreates (openFile files faults path create).1 := by
  unfold openFile
  split
  · exact .refl files
  · split
    · exact .refl files
    · rename_i hnone
      split
      · exact Files.onlyCreates_update hnone
      · exact .refl files

namespace PageStore

variable {K B P : Type} [DecidableEq B] [KeyExt K B] [KeyExt B B] [Pod P]

omit [DecidableEq B] in
/-- Loading a page creates one file at most. -/
theorem onlyCreates_loadFromDisk (store : PageStore B P) (files : Files) (faults : Faults) (key : B) (create : Bool) :
    files.OnlyCreates (store.loadFromDisk files faults key create).1 := by
  have hopen := onlyCreates_openFile files faults (store.path ++ [KeyExt.filename key]) create
  unfold loadFromDisk
  simp only
  split
  · rename_i heq
    rwa [heq] at hopen
  · rename_i heq
    rw [heq] at hopen
    split
    · exact hopen
    · split <;> exact hopen

/-- A call for a page creates one file at most. -/
theorem onlyCreates_fetch {store : PageStore B P} {files : Files} {faults : Faults} {item : K} {create : Bool}
    {after : After B P CacheMeta} (h : store.fetch files faults item create = .ok after) :
    files.OnlyCreates after.files := by
  have hcreates := store.onlyCreates_loadFromDisk files faults (KeyExt.pageBound item) create
  cases hlookup : store.pageMap.lookup (KeyExt.pageBound item) with
  | some cached =>
    obtain ⟨store', hrun, -⟩ := fetch_hit files faults create hlookup
    cases hrun.symm.trans h
    exact .refl files
  | none =>
    rcases hload : store.loadFromDisk files faults (KeyExt.pageBound item) create with ⟨files', e | page⟩
    · cases (fetch_fail hlookup hload).symm.trans h
      rwa [hload] at hcreates
    · cases (store.fetch_load item hlookup hload).1.symm.trans h
      rwa [hload] at hcreates

/-- What the cache holds for a key. -/
def held (store : PageStore B P) (key : B) : Option P :=
  (store.pageMap.lookup key).bind fun cached => store.pages[cached.idx]?

omit [KeyExt B B] [Pod P] in
@[simp] theorem held_openAt (path : Path) (recs : Nat) (key : B) :
    (openAt path recs : PageStore B P).held key = none := by
  simp [held, openAt]

omit [KeyExt B B] [Pod P] in
theorem held_cached {store : PageStore B P} {key : B} {cached : CacheMeta} (h : store.pageMap.lookup key = some cached) :
    store.held key = store.pages[cached.idx]? := by
  simp [held, h]

omit [KeyExt B B] [Pod P] in
theorem held_not_cached {store : PageStore B P} {key : B} (h : store.pageMap.lookup key = none) :
    store.held key = none := by
  simp [held, h]

omit [KeyExt B B] [Pod P] in
/-- The cache holds a page for the keys that it maps, and for no others. -/
theorem held_eq_none_iff {store : PageStore B P} (hok : store.SlotsOk) {key : B} :
    store.held key = none ↔ store.pageMap.lookup key = none := by
  cases hlookup : store.pageMap.lookup key with
  | none => simp [held_not_cached hlookup]
  | some cached =>
    have hi := hok.in_range key cached hlookup
    simp [held_cached hlookup, hi]

omit [KeyExt K B] in
/-- A page held after a call that found a page was held before it, or was not, and is the one on disk. -/
theorem Fetched.held_step {store store' : PageStore B P} {files files' : Files} {key : B} {cached : CacheMeta}
    (hf : store.Fetched files key cached store' files') (hok : store.SlotsOk) {key' : B} {page : P}
    (h : store'.held key' = some page) :
    store.held key' = some page ∨ (store.held key' = none ∧ store'.onDisk files' key' = some page) := by
  by_cases hkey : key' = key
  · subst hkey
    rw [held_cached hf.lookup_self] at h
    rcases hf.place with ⟨before, hbefore, hidx, hsame⟩ | ⟨hnone, hidx, added, hadded, hdisk⟩
    · rw [hidx, hsame] at h
      exact Or.inl ((held_cached hbefore).trans h)
    · rw [hadded, hidx, List.getElem?_concat_length] at h
      exact Or.inr ⟨held_not_cached hnone, onDisk_of_extends (.refl files') hf.path_eq (h ▸ hdisk)⟩
  · refine Or.inl ?_
    cases hlookup : store.pageMap.lookup key' with
    | none =>
      rw [held_not_cached ((hf.lookup_other key' hkey).trans hlookup)] at h
      cases h
    | some c =>
      rw [held_cached ((hf.lookup_other key' hkey).trans hlookup), hf.getElem?_pages (hok.in_range key' c hlookup)] at h
      exact (held_cached hlookup).trans h

omit [KeyExt B B] [Pod P] in
/-- Writing through a cached page changes what is held for its key, and for no other. -/
theorem held_writePage {store : PageStore B P} (hok : store.SlotsOk) {key : B} {cached : CacheMeta}
    (h : store.pageMap.lookup key = some cached) (page : P) (key' : B) :
    (store.writePage cached.idx page).held key' = if key' = key then some page else store.held key' := by
  have hi := hok.in_range key cached h
  by_cases hkey : key' = key
  · subst hkey
    have h' : (store.writePage cached.idx page).pageMap.lookup key' = some cached := h
    rw [if_pos rfl, held_cached h']
    simp [writePage, hi]
  · rw [if_neg hkey]
    cases hlookup : store.pageMap.lookup key' with
    | none => rw [held_not_cached hlookup, held_not_cached (by exact hlookup)]
    | some c =>
      have hne : cached.idx ≠ c.idx := fun heq => hkey (hok.distinct key' key c cached hlookup h heq.symm)
      have hlookup' : (store.writePage cached.idx page).pageMap.lookup key' = some c := hlookup
      rw [held_cached hlookup', held_cached hlookup]
      simp [writePage, hne]

omit [KeyExt B B] [Pod P] in
/-- A page held after an eviction was held before it. -/
theorem held_of_evict {search : BinarySearch} {store store' : PageStore B P} {count : Nat} {order : IterOrder B}
    (h : store.evict search count order = .ok store') {key : B} {page : P} (hheld : store'.held key = some page) :
    store.held key = some page := by
  obtain ⟨victims, pageMap, -, hlookup, hpages, -⟩ := evict_spec h
  have hkey := hlookup key
  cases hcached : store'.pageMap.lookup key with
  | none =>
    rw [held_not_cached hcached] at hheld
    cases hheld
  | some cached =>
    rw [hcached] at hkey
    split at hkey
    · cases hkey
    · obtain ⟨before, hbefore, rfl⟩ := Option.map_eq_some_iff.mp hkey.symm
      rw [held_cached hcached, hpages] at hheld
      exact (held_cached hbefore).trans hheld

end PageStore

/-- What an operation makes of the page held for a key: the change of a page that is handed out for the key, or
nothing. -/
def StoreOp.change {K B P : Type} [DecidableEq B] [KeyExt K B] (key : B) : StoreOp K B P → P → P
  | .itemPageMut item _ _ change, page => if KeyExt.pageBound item = key then change page else page
  | .fetch _ _ _, page => page
  | .evict _ _, page => page

namespace Traced

variable {K B P : Type} [DecidableEq B] [KeyExt K B] [KeyExt B B] [Pod P]

/-- A call leaves the path, and creates one file at most. -/
theorem path_files_of_step {search : BinarySearch} {s t : Traced B P} {op : StoreOp K B P} (hok : s.store.SlotsOk)
    (h : s.step search op = .ok t) : t.store.path = s.store.path ∧ s.files.OnlyCreates t.files := by
  constructor
  · cases does_of_step hok h with
    | fails hstore => rw [hstore]
    | finds fetched => exact fetched.path_eq
    | handsOut fetched stands written =>
      rw [written]
      exact fetched.path_eq
    | evicts evicted =>
      obtain ⟨_, _, _, _, _, hpath, _⟩ := PageStore.evict_spec evicted
      exact hpath
  · cases ran_of_step h with
    | fetches run => exact PageStore.onlyCreates_fetch run
    | refused run | writes run =>
      obtain ⟨fetched, hfetch, hcase⟩ := PageStore.handsOut_of_itemPageMut run
      cases hcase
      exact PageStore.onlyCreates_fetch hfetch
    | evicts run => exact .refl s.files

/-- A page held after a call was held before it, with the change of the call, or was loaded by it, and then has the
change. -/
theorem held_of_step {search : BinarySearch} {s t : Traced B P} {op : StoreOp K B P} (hok : s.store.SlotsOk)
    (h : s.step search op = .ok t) {key : B} {page : P} (hheld : t.store.held key = some page) :
    ∃ before, page = op.change key before ∧ (s.store.held key = some before ∨
      (s.store.held key = none ∧ t.store.onDisk t.files key = some before)) := by
  cases ran_of_step h with
  | @fetches item create faults _ run =>
    obtain ⟨⟨store', files', result⟩, hrun, hcase⟩ := s.store.fetch_spec s.files faults item create
    cases hrun.symm.trans run
    cases result with
    | error e =>
      obtain ⟨rfl, -⟩ := hcase
      exact ⟨page, rfl, Or.inl hheld⟩
    | ok cached => exact ⟨page, rfl, hcase.held_step hok hheld⟩
  | @refused item create faults change _ _ _ run =>
    obtain ⟨⟨store', files', result⟩, hfetch, hcase⟩ := s.store.fetch_spec s.files faults item create
    obtain ⟨_, hfetch', hout⟩ := PageStore.handsOut_of_itemPageMut run
    cases hfetch.symm.trans hfetch'
    cases hout with
    | refused failed =>
      rw [failed] at hcase
      obtain ⟨rfl, hnone, -⟩ := hcase
      -- a page that is handed out in vain is not the one held
      have hne : KeyExt.pageBound item ≠ key := by
        rintro rfl
        rw [PageStore.held_not_cached hnone] at hheld
        cases hheld
      exact ⟨page, by rw [StoreOp.change, if_neg hne], Or.inl hheld⟩
  | @writes item create faults change store' _ ref run =>
    obtain ⟨cached, hf, -, hidx, hpage⟩ := PageStore.itemPageMut_ok hok run rfl
    have hheldRef : store'.held (KeyExt.pageBound item) = some ref.page := by
      rw [PageStore.held_cached hf.lookup_self, ← hidx, hpage]
    simp only [hidx] at hheld
    rw [PageStore.held_writePage (hf.slotsOk hok) hf.lookup_self] at hheld
    by_cases hkey : key = KeyExt.pageBound item
    · subst hkey
      rw [if_pos rfl] at hheld
      refine ⟨ref.page, ?_, hf.held_step hok hheldRef⟩
      rw [StoreOp.change, if_pos rfl]
      exact (Option.some.inj hheld).symm
    · rw [if_neg hkey] at hheld
      exact ⟨page, by rw [StoreOp.change, if_neg (Ne.symm hkey)], hf.held_step hok hheld⟩
  | evicts run => exact ⟨page, rfl, Or.inl (PageStore.held_of_evict run hheld)⟩

/-- The cache lies over the files. -/
theorem overlays (search : BinarySearch) :
    Overlays (fun (s : Traced B P) (op : StoreOp K B P) t => s.step search op = .ok t)
    (fun s => s.store.SlotsOk) (fun s => s.store.onDisk s.files) (fun s => s.store.held) StoreOp.change where
  keeps _ _ _ hok h := step_slotsOk hok h
  base_stays _ _ _ _ _ hok h hdisk := by
    obtain ⟨hpath, hfiles⟩ := path_files_of_step hok h
    exact PageStore.onDisk_of_extends hfiles.extends_files hpath hdisk
  held_step _ _ _ _ _ hok h hheld := held_of_step hok h hheld

/-- A run of these calls. -/
def Calls (search : BinarySearch) (s : Traced B P) (ops : List (StoreOp K B P)) (t : Traced B P) : Prop :=
  Trace (fun s op t => s.step search op = .ok t) s ops t

end Traced

/-- After any calls on a new store, the cache holds a page for every key that it maps. This is the page of the file
with the changes that were made by the calls since it was loaded, in order: some call found no page for the key,
one has been held since, and the file still has the page that was loaded. No file that was there has changed, and
one that appeared is empty. -/
theorem cached_page_of_run {K B P : Type} [DecidableEq B] [KeyExt K B] [KeyExt B B] [Pod P] {search : BinarySearch}
    {path : Path} {recs : Nat} {files : Files} {ops : List (StoreOp K B P)} {s : Traced B P}
    (hrun : (Traced.start path recs files).Calls search ops s) :
    (∀ key, (s.store.pageMap.lookup key).isSome → (s.store.held key).isSome) ∧
    (∀ key page, s.store.held key = some page → ∃ before after mid loaded, ops = before ++ after ∧
      (Traced.start path recs files).Calls search before mid ∧ mid.store.held key = none ∧
        Trace (fun s op t => s.step search op = .ok t ∧ (t.store.held key).isSome) mid after s ∧
          s.store.onDisk s.files key = some loaded ∧ page = after.foldl (fun page op => op.change key page) loaded) ∧
    files.OnlyCreates s.files := by
  have hstart := PageStore.slotsOk_openAt (B := B) (P := P) path recs
  have ho := Traced.overlays (K := K) (B := B) (P := P) search
  refine ⟨fun key hkey => ?_, fun key page hheld => ?_, ?_⟩
  · rw [Option.isSome_iff_ne_none] at hkey ⊢
    exact (PageStore.held_eq_none_iff (hrun.inv ho.keeps hstart)).not.mpr hkey
  · exact ho.held_since hstart (PageStore.held_openAt path recs key) hrun hheld
  · have hfiles : s.store.SlotsOk ∧ files.OnlyCreates s.files := by
      refine Trace.inv (I := fun t : Traced B P => t.store.SlotsOk ∧ files.OnlyCreates t.files) ?_ hrun ⟨hstart,
        .refl files⟩
      rintro t op u ⟨hok, hcreates⟩ hstep
      exact ⟨Traced.step_slotsOk hok hstep, hcreates.trans (Traced.path_files_of_step hok hstep).2⟩
    exact hfiles.2

/-- The second page of an index is filled with ones, evicted and fetched: the page cached then is the one of the file. -/
theorem cached_page_of_run_evicted : ∃ s : Traced IdxKey IdxPage,
    exampleStart.Calls .halving [fillSecondPage, .evict 1 (.id IdxKey), .fetch secondPage false .none] s ∧
      s.left secondPage = some (pageOf 1) ∧ s.store.held secondPage = some (pageOf 0) ∧
        (Files.OnlyCreates exampleFiles s.files) := by
  have hfill := Traced.step_itemPageMut .halving exampleStart (fun _ => pageOf 1)
    (exampleStart.store.itemPageMut_load secondPage rfl (loadFromDisk_example _ _))
  have hfilled : exampleStart.Calls .halving [fillSecondPage] _ := Trace.nil.snoc hfill
  have hevicted : exampleStart.Calls .halving [fillSecondPage, .evict 1 (.id IdxKey)] _ := hfilled.snoc rfl
  have hrun : exampleStart.Calls .halving [fillSecondPage, .evict 1 (.id IdxKey), .fetch secondPage false .none] _ :=
    hevicted.snoc (Traced.step_fetch (PageStore.fetch_load _ secondPage rfl (loadFromDisk_example _ _)).1)
  exact ⟨_, hrun, rfl, rfl, (cached_page_of_run hrun).2.2⟩

end Kobzar
