import Kobzar.Library.Intervals
import Kobzar.PageStore.Keys
import Kobzar.Pidx.Branches

/-!
# Versions of a record

The versions of a record lie anywhere in the primary index, each linked with the next one. A transaction sees one
of them by the maps that the scalar branch computes of their pages (`one_version_shown`), and none by those of a
vector branch (`vectors_show_nothing_iff`).
-/

namespace Kobzar.Pidx

open Bits Intervals

/-- The pages of a primary index. -/
abbrev Pages : Type := PageBoundKey → Page

/-- The place of an item is within its page. -/
theorem Key.inPageOffset_lt (key : Key) : key.inPageOffset < pageSizeRecs := by
  have hsize : (BitVec.ofNat 64 pageSizeRecs).toNat = pageSizeRecs := rfl
  rw [inPageOffset, BitVec.toNat_umod, hsize]
  exact Nat.mod_lt _ (by decide)

/-- The place of a record in its page. -/
def Key.place (key : Key) : Fin pageSizeRecs := ⟨key.inPageOffset, key.inPageOffset_lt⟩

namespace Pages

/-- The entry of a record in a column. -/
def entry (pages : Pages) (column : Page → Vector U64 pageSizeRecs) (key : Key) : U64 :=
  (column (pages key.pageBound))[key.place]

/-- Whether the map that a machine computes of its page shows a record to a transaction. -/
def shown (pages : Pages) (arch : Simd) (x : U64) (key : Key) : Outcome Bool := do
  let map ← (pages key.pageBound).visibilityMap arch x
  return bitAt map key.inPageOffset

/-- A version of a record and the later ones: each is linked with the next one by their item numbers, and was
deleted by the transaction that created that one, which is no older; the newest one is not deleted. -/
inductive Versions (pages : Pages) : Key → List Key → Prop
  | newest {key : Key} (next : pages.entry Page.next key = invalid) (live : pages.entry Page.xmax key = invalid) :
      Versions pages key []
  | replaced {key later : Key} {rest : List Key} (next : pages.entry Page.next key = later.item)
      (prev : pages.entry Page.prev later = key.item) (deleted : pages.entry Page.xmax key = pages.entry Page.xmin later)
      (ordered : pages.entry Page.xmin key ≤ pages.entry Page.xmin later) (behind : Versions pages later rest) :
      Versions pages key (later :: rest)

/-- The transaction that created a record. -/
def createdBy (pages : Pages) (key : Key) : Nat := (pages.entry Page.xmin key).toNat

/-- The transaction that deleted a record, the greatest word while it is not deleted. -/
def deletedBy (pages : Pages) (key : Key) : Nat := (pages.entry Page.xmax key).toNat

/-- Versions were current one after the other. -/
theorem Versions.consecutive {pages : Pages} {key : Key} {rest : List Key} (h : pages.Versions key rest) :
    Consecutive pages.createdBy pages.deletedBy invalid.toNat key rest := by
  induction h with
  | newest next live => exact .one (congrArg BitVec.toNat live)
  | replaced next prev deleted ordered behind ih => exact .cons (congrArg BitVec.toNat deleted) ordered ih

/-- On a machine without vectors of these widths, the map of its page shows a record to the transactions above the
one that created it, up to the one that deleted it. -/
theorem shown_scalar (pages : Pages) {arch : Simd} (h8 : arch.u64Lanes ≠ 8) (h4 : arch.u64Lanes ≠ 4)
    (h2 : arch.u64Lanes ≠ 2) (x : U64) (key : Key) :
    pages.shown arch x key = .ok (decide (Holds pages.createdBy pages.deletedBy x.toNat key)) := by
  obtain ⟨map, hrun, -, hbits⟩ := fallback_ok (pages key.pageBound) x
  have hbit := (hbits key.inPageOffset key.inPageOffset_lt).trans (selected_eq_shows (pages key.pageBound) x key.place)
  rw [shown, Page.visibilityMap, withSimd_eq, if_neg h8, if_neg h4, if_neg h2, hrun, ok_bind, hbit]
  rfl

end Pages

/-- A record that is shown to a transaction by the maps of the scalar branch is shown in exactly one of its
versions, wherever these lie; a transaction that is not above the one that created the first version sees none. -/
theorem one_version_shown {pages : Pages} {key : Key} {rest : List Key} (h : pages.Versions key rest) {arch : Simd}
    (h8 : arch.u64Lanes ≠ 8) (h4 : arch.u64Lanes ≠ 4) (h2 : arch.u64Lanes ≠ 2) (x : U64) :
    (pages.entry Page.xmin key < x →
      ∃ version, (key :: rest).filter (pages.shown arch x · = .ok true) = [version]) ∧
      (x ≤ pages.entry Page.xmin key → (key :: rest).filter (pages.shown arch x · = .ok true) = []) := by
  have hshown : (fun key => decide (pages.shown arch x key = .ok true)) =
      fun key => decide (Holds pages.createdBy pages.deletedBy x.toNat key) := by
    funext key
    rw [pages.shown_scalar h8 h4 h2]
    simp
  rw [hshown]
  exact ⟨fun hx => h.consecutive.filter_eq hx (Nat.le_of_lt_succ x.isLt), fun hx => h.consecutive.filter_eq_nil hx⟩

/-! ### A record on the first page that was replaced by one on the second -/

/-- The last record of the first page. -/
def oldVersion : Key := { typeId := 1, item := 4095, db := 0 }

/-- The first record of the second page. -/
def newVersion : Key := { typeId := 1, item := 4096, db := 0 }

/-- Transaction 3 created the records of the first page, and transaction 7 deleted them and created the others. -/
def replacedRecords : Pages := fun key =>
  if key.key.item = 0 then
    { Page.new with
      xmin := Vector.replicate _ 3
      xmax := Vector.replicate _ 7
      next := Vector.replicate _ newVersion.item }
  else { Page.new with xmin := Vector.replicate _ 7, prev := Vector.replicate _ oldVersion.item }

theorem versions_replacedRecords : replacedRecords.Versions oldVersion [newVersion] := by
  have hold : (oldVersion.pageBound).key.item = 0 := by decide
  have hnew : ¬(newVersion.pageBound).key.item = 0#64 := by decide
  refine .replaced ?_ ?_ ?_ ?_ (.newest ?_ ?_) <;> simp [Pages.entry, replacedRecords, hold, hnew, Page.new]

/-- A machine without vectors. -/
def oneLane : Simd := { u64Lanes := 1, dvd := Nat.one_dvd _ }

/-- Transaction 7, which replaced the record, sees one version of it. -/
theorem one_version_shown_replaced :
    ∃ version, [oldVersion, newVersion].filter (replacedRecords.shown oneLane 7 · = .ok true) = [version] := by
  have hcreated : replacedRecords.entry Page.xmin oldVersion < 7 := by
    have hold : (oldVersion.pageBound).key.item = 0 := by decide
    simp [Pages.entry, replacedRecords, hold]
  exact (one_version_shown versions_replacedRecords (by decide) (by decide) (by decide) 7).1 hcreated

/-! ## The vector branches -/

/-- When the maps of a vector branch show no record to any transaction: the narrow branches return none, and those
of eight lanes show none exactly on the pages where no record was deleted by an older transaction than the one that
created it. -/
theorem vectors_show_nothing_iff {arch : Simd} (hvector : arch.u64Lanes = 8 ∨ arch.u64Lanes = 4 ∨ arch.u64Lanes = 2)
    (page : Page) : (∀ x map, page.visibilityMap arch x = .ok map → map = emptyMap) ↔
      (arch.u64Lanes = 8 → ∀ i, page.xmin.get i ≤ page.xmax.get i) := by
  rcases hvector with h8 | h4 | h2
  · have hmap : ∀ x map, page.visibilityMap arch x = .ok map →
        (map = emptyMap ↔ ∀ i : Fin pageSizeRecs, ¬page.exchanged.Shows x i) := by
      intro x map hmap
      obtain ⟨map', hrun, hlen, hbits⟩ := lanes8_ok h8 page.xmin page.xmax x
      rw [Page.visibilityMap, withSimd_eq, if_pos h8, hrun] at hmap
      cases hmap
      rw [map_eq_iff hlen length_emptyMap hbits fun p _ => bitAt_emptyMap p]
      constructor
      · intro h i hs
        have hi := h i i.isLt
        rw [selected_eq_shows_exchanged, decide_eq_false_iff_not] at hi
        exact hi hs
      · intro h p hp
        rw [selected_eq_shows_exchanged page x ⟨p, hp⟩, decide_eq_false_iff_not]
        exact h ⟨p, hp⟩
    constructor
    · intro h _ i
      obtain ⟨map, hrun, -⟩ := lanes8_ok h8 page.xmin page.xmax (page.xmin.get i)
      have hok : page.visibilityMap arch (page.xmin.get i) = .ok map := by
        rw [Page.visibilityMap, withSimd_eq, if_pos h8, hrun]
      have hnot := (hmap _ map hok).mp (h _ map hok) i
      exact BitVec.not_lt.mp fun hlt => hnot ⟨hlt, BitVec.le_refl _⟩
    · intro h x map hok
      refine (hmap x map hok).mpr ?_
      rintro i ⟨hlt, hle⟩
      have hi : page.xmin[i] ≤ page.xmax[i] := h h8 i
      simp only [Page.exchanged, BitVec.lt_def, BitVec.le_def] at hlt hle hi
      omega
  · have hpanics : ∀ x, page.visibilityMap arch x = .error .indexOutOfBounds := by
      intro x
      simp [Page.visibilityMap, withSimd_eq, h4, lanes4_panics _ _ _ h4]
    simp [hpanics, h4]
  · have hpanics : ∀ x, page.visibilityMap arch x = .error .indexOutOfBounds := by
      intro x
      simp [Page.visibilityMap, withSimd_eq, h2, lanes2_panics _ _ _ h2]
    simp [hpanics, h2]

/-- The records of a page of new ones are shown to no transaction. -/
theorem vectors_show_nothing_live : (∀ x map, liveRecords.visibilityMap eightLanes x = .ok map → map = emptyMap) ∧
    ∀ i, liveRecords.xmin.get i ≤ liveRecords.xmax.get i := by
  have hle : ∀ i, liveRecords.xmin.get i ≤ liveRecords.xmax.get i := by
    intro i
    simp [liveRecords, Page.new, BitVec.le_def]
  exact ⟨(vectors_show_nothing_iff (Or.inl rfl) liveRecords).mpr fun _ => hle, hle⟩

end Kobzar.Pidx
