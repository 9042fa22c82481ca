import Kobzar.PageStore.Updates

/-!
# Cached pages do not interfere

Every call keeps the cached pages at places of their own, so that in any state a run of calls reaches the keys and
the places of the cached pages correspond (`slotsOk_of_run`), and a change of the page handed out for one key
reaches no other page (`pagesApart_of_run`).
-/

namespace Kobzar

open Search Runs

namespace Pidx

/-- Two items are bound to the same page when they are items of one type in one database, and of one group of items. -/
theorem Key.pageBound_eq_iff (key key' : Key) : key.pageBound = key'.pageBound ↔
    key.typeId = key'.typeId ∧ key.db = key'.db ∧ key.item.toNat / pageSizeRecs = key'.item.toNat / pageSizeRecs := by
  have hfirst : ∀ item : U64,
      (item - item % BitVec.ofNat 64 pageSizeRecs).toNat = pageSizeRecs * (item.toNat / pageSizeRecs) := by
    intro item
    have hle : item % BitVec.ofNat 64 pageSizeRecs ≤ item := by
      rw [BitVec.le_def, BitVec.toNat_umod]
      exact Nat.mod_le _ _
    have hsize : (BitVec.ofNat 64 pageSizeRecs).toNat = pageSizeRecs := rfl
    rw [BitVec.toNat_sub_of_le hle, BitVec.toNat_umod, hsize, pageSizeRecs]
    omega
  have hitem : key.item - key.item % BitVec.ofNat 64 pageSizeRecs =
    key'.item - key'.item % BitVec.ofNat 64 pageSizeRecs ↔
      key.item.toNat / pageSizeRecs = key'.item.toNat / pageSizeRecs := by
    rw [← BitVec.toNat_inj, hfirst, hfirst, pageSizeRecs]
    omega
  rw [← hitem, Key.pageBound, Key.pageBound, PageBoundKey.mk.injEq, Key.mk.injEq]
  exact and_congr_right fun _ => and_comm

end Pidx

namespace Traced

variable {K B P : Type} [DecidableEq B] [KeyExt K B] [KeyExt B B] [Pod P]

/-- A run of calls from a new store. -/
def AnyRun (K : Type) [KeyExt K B] (search : BinarySearch) (path : Path) (recs : Nat) (files : Files)
    (s : Traced B P) : Prop :=
  Reaches (fun _ (_ : StoreOp K B P) => True) (fun s op t => s.step search op = .ok t) (start path recs files) s

/-- In every state that a run reaches, the cached pages are at places of their own. -/
theorem slotsOk_of_run {search : BinarySearch} {path : Path} {recs : Nat} {files : Files} {s : Traced B P}
    (h : AnyRun K search path recs files s) : s.store.SlotsOk :=
  Reaches.inv (fun s => s.store.SlotsOk) (fun _ _ _ hok _ hs => step_slotsOk hok hs) h
    (PageStore.slotsOk_openAt path recs)

/-- The cached pages of a store do not interfere. -/
structure PagesApart (K : Type) [KeyExt K B] (search : BinarySearch) (s : Traced B P) : Prop where
  /-- Every cached page lies within the pages. -/
  in_range : ∀ key cached, s.store.pageMap.lookup key = some cached → cached.idx < s.store.pages.length
  /-- Different keys never share a place. -/
  distinct : ∀ key key' cached cached', s.store.pageMap.lookup key = some cached →
    s.store.pageMap.lookup key' = some cached' → key ≠ key' → cached.idx ≠ cached'.idx
  /-- Two items have the same place exactly when they are bound to the same page. -/
  same_place_iff : ∀ (item item' : K) cached cached', s.store.pageMap.lookup (KeyExt.pageBound item) = some cached →
    s.store.pageMap.lookup (KeyExt.pageBound item') = some cached' →
      (cached.idx = cached'.idx ↔ (KeyExt.pageBound item : B) = KeyExt.pageBound item')
  /-- The page handed out for an item is the one at the place of its entry. -/
  handed_out : ∀ (item : K) create faults after ref, s.store.itemPageMut s.files faults item create = .ok after →
    after.result = .ok ref → ∃ cached, after.store.pageMap.lookup (KeyExt.pageBound item) = some cached ∧
      ref.idx = cached.idx ∧ after.store.pages[ref.idx]? = some ref.page
  /-- Handing out the page of an item and changing it leaves every other cached page as it is. -/
  others_kept : ∀ (item : K) create faults change t, s.step search (.itemPageMut item create faults change) = .ok t →
    ∀ key, key ≠ KeyExt.pageBound item → ∀ cached, s.store.pageMap.lookup key = some cached →
      t.store.pageMap.lookup key = some cached ∧ t.store.pages[cached.idx]? = s.store.pages[cached.idx]?

/-- Handing out a page and changing it leaves the other cached pages as they are. -/
theorem others_kept_of_slotsOk {search : BinarySearch} {s t : Traced B P} (hok : s.store.SlotsOk) {item : K}
    {create : Bool} {faults : Faults} {change : P → P}
    (h : s.step search (.itemPageMut item create faults change) = .ok t) {key : B}
    (hkey : key ≠ KeyExt.pageBound item) {cached : CacheMeta} (hcached : s.store.pageMap.lookup key = some cached) :
    t.store.pageMap.lookup key = some cached ∧ t.store.pages[cached.idx]? = s.store.pages[cached.idx]? := by
  cases does_of_step hok h with
  | fails hstore =>
    rw [hstore]
    exact ⟨hcached, rfl⟩
  | @handsOut _ _ _ _ store' entry _ fetched stands written =>
    have hlookup : store'.pageMap.lookup key = some cached := (fetched.lookup_other key hkey).trans hcached
    -- the place written to belongs to the page handed out, and so to no other
    have hne : entry.idx ≠ cached.idx := fun heq =>
      hkey ((fetched.slotsOk hok).distinct key _ cached entry hlookup fetched.lookup_self heq.symm)
    rw [written]
    refine ⟨hlookup, ?_⟩
    rw [PageStore.writePage, List.getElem?_set_ne hne]
    exact fetched.getElem?_pages (hok.in_range key cached hcached)

end Traced

/-- In every state that a run of calls from a new store reaches, the cached pages do not interfere. -/
theorem pagesApart_of_run {K B P : Type} [DecidableEq B] [KeyExt K B] [KeyExt B B] [Pod P] {search : BinarySearch}
    {path : Path} {recs : Nat} {files : Files} {s : Traced B P}
    (hrun : s.AnyRun K search path recs files) : s.PagesApart K search where
  in_range := (Traced.slotsOk_of_run hrun).in_range
  distinct key key' cached cached' h h' hne heq :=
    hne ((Traced.slotsOk_of_run hrun).distinct key key' cached cached' h h' heq)
  same_place_iff item item' cached cached' h h' := by
    constructor
    · exact (Traced.slotsOk_of_run hrun).distinct _ _ cached cached' h h'
    · intro heq
      rw [heq, h'] at h
      cases h
      rfl
  handed_out item create faults after ref hcall href := by
    obtain ⟨cached, hf, -, hidx, hpage⟩ := PageStore.itemPageMut_ok (Traced.slotsOk_of_run hrun) hcall href
    exact ⟨cached, hf.lookup_self, hidx, hpage⟩
  others_kept item create faults change t h key hkey cached hcached :=
    Traced.others_kept_of_slotsOk (Traced.slotsOk_of_run hrun) h hkey hcached

/-- The first page of an index is fetched and the second filled with ones. -/
theorem pagesApart_of_run_two_pages : ∃ s₁ s₂,
    exampleStart.step (K := IdxKey) .halving (.fetch firstPage false .none) = .ok s₁ ∧
      s₁.step .halving fillSecondPage = .ok s₂ ∧ s₂.PagesApart IdxKey .halving := by
  have hfirst : exampleStart.step (K := IdxKey) .halving (.fetch firstPage false .none) = .ok _ :=
    Traced.step_fetch (exampleStart.store.fetch_load firstPage rfl (loadFromDisk_example _ _)).1
  have hfill := Traced.step_itemPageMut .halving
    { exampleStart with store := exampleStart.store.addPage firstPage (pageOf 0), files := exampleFiles }
      (fun _ => pageOf 1)
    (PageStore.itemPageMut_load _ secondPage rfl (loadFromDisk_example _ _))
  have hrun : Traced.AnyRun IdxKey .halving ["heap"] 4 exampleFiles _ :=
    ((Reaches.refl _).snoc (.fetch firstPage false .none) trivial hfirst).snoc fillSecondPage trivial hfill
  exact ⟨_, _, hfirst, hfill, pagesApart_of_run hrun⟩

end Kobzar
