import Kobzar.PageStore.Isolation

/-!
# When a page cannot be had

A call for a page fails only with an error of loading the page, and then leaves the cache as it was
(`failed_access_keeps_store`). A page that is to be created is loaded too: its file is created when it is missing,
and then read in full, so that the call succeeds exactly when the file held a page already
(`itemPageMut_creates_iff`).
-/

namespace Kobzar

namespace PageStore

variable {K B P : Type} [DecidableEq B] [KeyExt K B] [KeyExt B B] [Pod P]

/-! ## A failed call -/

/-- A call for a page that ends fails with `e` exactly when the page is not cached and loading it fails with `e`,
and then it leaves the store as it was. -/
structure FailsOnLoad {α : Type} (store : PageStore B P) (files : Files) (faults : Faults) (key : B) (create : Bool)
    (after : After B P α) : Prop where
  error_iff : ∀ e, after.result = .error e ↔
    store.pageMap.lookup key = none ∧ (store.loadFromDisk files faults key create).2 = .error e
  store_eq : ∀ e, after.result = .error e → after.store = store

/-- `fetch` fails only on loading. -/
theorem fetch_fails_on_load (store : PageStore B P) (files : Files) (faults : Faults) (item : K) (create : Bool) :
    ∃ after, store.fetch files faults item create = .ok after ∧
      store.FailsOnLoad files faults (KeyExt.pageBound item) create after := by
  cases hlookup : store.pageMap.lookup (KeyExt.pageBound item) with
  | some cached =>
    obtain ⟨store', hrun, -⟩ := fetch_hit files faults create hlookup
    refine ⟨_, hrun, fun e => ⟨fun he => ?_, fun he => ?_⟩, fun e he => ?_⟩
    · cases he
    · rw [hlookup] at he
      cases he.1
    · cases he
  | none =>
    cases hload : store.loadFromDisk files faults (KeyExt.pageBound item) create with
    | mk files' r =>
      cases r with
      | error e =>
        refine ⟨_, fetch_fail hlookup hload, fun e' => ?_, fun e' he => rfl⟩
        simp only [hload, hlookup, true_and, Except.error.injEq]
      | ok page =>
        refine ⟨_, (store.fetch_load item hlookup hload).1, fun e => ⟨fun he => ?_, fun he => ?_⟩, fun e he => ?_⟩
        · cases he
        · rw [hload] at he
          cases he.2
        · cases he

/-- `itemPageMut` fails only on loading. -/
theorem itemPageMut_fails_on_load {store : PageStore B P} (hok : store.SlotsOk) (files : Files) (faults : Faults)
    (item : K) (create : Bool) : ∃ after, store.itemPageMut files faults item create = .ok after ∧
      store.FailsOnLoad files faults (KeyExt.pageBound item) create after := by
  obtain ⟨fetched, hfetch, hfails⟩ := store.fetch_fails_on_load files faults item create
  obtain ⟨after, hrun, -⟩ := itemPageMut_spec hok files faults item create
  refine ⟨after, hrun, ?_⟩
  obtain ⟨fetched', hfetch', hcase⟩ := handsOut_of_itemPageMut hrun
  cases hfetch.symm.trans hfetch'
  cases hcase with
  | @refused e failed =>
    refine ⟨fun e' => ?_, fun _ _ => hfails.store_eq e failed⟩
    rw [← hfails.error_iff e', failed]
    simp only [Except.error.injEq]
  | marked found =>
    refine ⟨fun e => ⟨fun he => ?_, fun he => ?_⟩, fun e he => ?_⟩
    · cases he
    · cases found.symm.trans ((hfails.error_iff e).mpr he)
    · cases he

/-! ## A page that is to be created -/

/-- The contents of the file of a page, a missing file being empty. -/
def fileBytes (store : PageStore B P) (files : Files) (key : B) : List U8 := (files (store.pagePath key)).getD []

omit [DecidableEq B] in
/-- What loading a page to be created returns, when the file system has no faults of its own. -/
theorem loadFromDisk_create (store : PageStore B P) (files : Files) (key : B) :
    (store.loadFromDisk files .none key true).2 = if Pod.size P ≤ (store.fileBytes files key).length then
      .ok (Pod.ofBytes (block (Pod.size P) 0 (store.fileBytes files key))) else .error (.io .unexpectedEof) := by
  have hopen : ∃ files', openFile files .none (store.path ++ [KeyExt.filename key]) true =
      (files', .ok (store.fileBytes files key)) := by
    unfold openFile fileBytes pagePath
    cases hfile : files (store.path ++ [KeyExt.filename key]) with
    | none => exact ⟨_, rfl⟩
    | some bytes => exact ⟨_, rfl⟩
  obtain ⟨files', hopen⟩ := hopen
  have hread : readExact .none (store.fileBytes files key) (Pod.size P) =
      if Pod.size P ≤ (store.fileBytes files key).length then .ok ((store.fileBytes files key).take (Pod.size P))
      else .error .unexpectedEof := rfl
  unfold loadFromDisk
  simp only [hopen, hread]
  by_cases hlen : Pod.size P ≤ (store.fileBytes files key).length
  · simp [hlen, block]
  · simp [hlen]

end PageStore

/-- A failed access changes nothing in the cache. In every state that a run of calls from a new store reaches,
`fetch` and `itemPageMut` end, for any item and with any faults of the file system; each fails with an error
exactly when the page is not cached and loading it fails with this error, and then leaves the store as it was. -/
theorem failed_access_keeps_store {K B P : Type} [DecidableEq B] [KeyExt K B] [KeyExt B B] [Pod P]
    {search : Search.BinarySearch} {path : Path} {recs : Nat} {files : Files} {s : Traced B P}
    (hrun : s.AnyRun K search path recs files) (item : K) (create : Bool) (faults : Faults) :
    (∃ after, s.store.fetch s.files faults item create = .ok after ∧
      s.store.FailsOnLoad s.files faults (KeyExt.pageBound item) create after) ∧
    ∃ after, s.store.itemPageMut s.files faults item create = .ok after ∧
      s.store.FailsOnLoad s.files faults (KeyExt.pageBound item) create after :=
  ⟨s.store.fetch_fails_on_load s.files faults item create,
    PageStore.itemPageMut_fails_on_load (Traced.slotsOk_of_run hrun) s.files faults item create⟩

/-- A page of an index that is not on disk is asked for: the store is as it was. -/
theorem failed_access_keeps_store_no_file :
    ∃ after, (Traced.start ["heap"] 4 (fun _ => none) : Traced IdxKey IdxPage).store.itemPageMut (fun _ => none)
        .none firstPage false = .ok after ∧
      (PageStore.openAt ["heap"] 4 : PageStore IdxKey IdxPage).FailsOnLoad (fun _ => none) .none firstPage false after :=
  (failed_access_keeps_store (Runs.Reaches.refl _ : Traced.AnyRun IdxKey .halving ["heap"] 4 (fun _ => none)
    (Traced.start ["heap"] 4 fun _ => none)) firstPage false .none).2

/-- When a page that is not cached is created: with no fault of the file system, the call succeeds, has the page
cached and marks it as dirty, exactly when the file of the page holds a page's bytes already, a missing file
holding none. Otherwise it fails with an end-of-file error. -/
theorem itemPageMut_creates_iff {K B P : Type} [DecidableEq B] [KeyExt K B] [KeyExt B B] [Pod P] (store : PageStore B P)
    (files : Files) (item : K) (hmiss : store.pageMap.lookup (KeyExt.pageBound item) = none) :
    ((∃ after ref cached, store.itemPageMut files .none item true = .ok after ∧ after.result = .ok ref ∧
      after.store.pageMap.lookup (KeyExt.pageBound item) = some cached ∧ cached.idx = ref.idx ∧
        cached.dirty = true) ↔ Pod.size P ≤ ((files (store.pagePath (KeyExt.pageBound item))).getD []).length) ∧
    (((files (store.pagePath (KeyExt.pageBound item))).getD []).length < Pod.size P →
      ∃ after, store.itemPageMut files .none item true = .ok after ∧ after.result = .error (.io .unexpectedEof)) := by
  have hload := store.loadFromDisk_create files (KeyExt.pageBound item)
  rcases hresult : store.loadFromDisk files .none (KeyExt.pageBound item) true with ⟨files', r⟩
  rw [hresult] at hload
  by_cases hlen : Pod.size P ≤ (store.fileBytes files (KeyExt.pageBound item)).length
  · rw [if_pos hlen] at hload
    subst hload
    refine ⟨iff_of_true ?_ hlen, fun hlt => absurd hlen (Nat.not_le.mpr hlt)⟩
    exact ⟨_, _, _, store.itemPageMut_load item hmiss hresult, rfl, AList.lookup_insert _, rfl, rfl⟩
  · rw [if_neg hlen] at hload
    subst hload
    have hfail : store.itemPageMut files .none item true = .ok ⟨store, files', .error (.io .unexpectedEof)⟩ := by
      simp [PageStore.itemPageMut, PageStore.fetch_fail hmiss hresult, pure, Except.pure]
    refine ⟨iff_of_false ?_ hlen, fun _ => ⟨_, hfail, rfl⟩⟩
    rintro ⟨after, ref, cached, hrun, hok, -⟩
    rw [hfail] at hrun
    cases hrun
    cases hok

/-- Page 2 of an index, of which no file holds the block. -/
def thirdPage : IdxKey := { secondPage with page := 2 }

/-- It is created, as its file holds the pages before it. -/
theorem itemPageMut_creates_third_page :
    ∃ after ref cached, exampleStart.store.itemPageMut exampleFiles .none thirdPage true = .ok after ∧
      after.result = .ok ref ∧ after.store.pageMap.lookup thirdPage = some cached ∧ cached.idx = ref.idx ∧
        cached.dirty = true := by
  have hlen : indexPageSize ≤ ((exampleFiles (exampleStart.store.pagePath thirdPage)).getD []).length := by
    simp [exampleFiles, twoBlocks]
  exact (itemPageMut_creates_iff exampleStart.store exampleFiles thirdPage rfl).1.mpr hlen

/-- The first page of an index that has no file yet is to be created: the file is created empty, and read in vain. -/
theorem itemPageMut_does_not_create :
    (PageStore.openAt ["heap"] 4 : PageStore IdxKey IdxPage).pageMap.lookup firstPage = none ∧
      ∃ after, (PageStore.openAt ["heap"] 4 : PageStore IdxKey IdxPage).itemPageMut (fun _ => none) .none firstPage
        true = .ok after ∧ after.files ["heap", "7.idx"] = some [] ∧ after.result = .error (.io .unexpectedEof) :=
  ⟨rfl, _, rfl, rfl, rfl⟩

end Kobzar
