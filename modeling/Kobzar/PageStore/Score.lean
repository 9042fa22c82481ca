import Kobzar.PageStore.Vacant

/-!
# Scores without wrap-around

A build that checks its arithmetic panics where the score of a cached page goes below zero or beyond a word
(`CacheMeta.evictionScoreChecked`). The generation recorded last is the one before the store's own, from which the
difference is taken the wrong way around. So no wrap-around happens through the runs that load no page, and a page
that is loaded leaves a store in which it happens (`scoresExactly_of_run`).
-/

namespace Kobzar

open Search Runs

/-! ## The score of a build that checks its arithmetic -/

/-- A ring filled with one generation is the same from every start. -/
theorem RingInline.rotateToNormalize_new (generation : U64) :
    (RingInline.new generation).rotateToNormalize = RingInline.new generation := by
  unfold rotateToNormalize rotateLeft new
  congr 1
  ext i hi
  simp

namespace CacheMeta

/-- The score of a history, where no difference goes below zero and no sum beyond a word. -/
def scoreChecked (lastAccessed : Vector U64 lastAccessedGens) (currentGen : U64) : Outcome U64 := do
  let arr ← lastAccessed.toList.mapM fun generation => subU64 generation currentGen
  arr.zipIdx.foldlM (fun score entry => addU64 score (entry.1 >>> entry.2).toNat) 0

/-- The page's eviction score, with the entry as it is left, in a build that checks its arithmetic. -/
def evictionScoreChecked (cached : CacheMeta) (currentGen : U64) : Outcome (CacheMeta × U64) := do
  let score ← scoreChecked cached.normalize.lastAccessed.lastAccessed currentGen
  return (cached.normalize, score)

/-- The differences are computed when none is below zero. -/
theorem mapM_subU64_eq_ok_iff {generations arr : List U64} {currentGen : U64} :
    generations.mapM (fun generation => subU64 generation currentGen) = .ok arr ↔
      (∀ generation ∈ generations, currentGen ≤ generation) ∧ arr = generations.map fun generation =>
        generation - currentGen := by
  induction generations generalizing arr with
  | nil => simp [pure, Except.pure, eq_comm]
  | cons generation generations ih =>
    simp only [List.mapM_cons, bind_eq_ok, subU64_eq_ok_iff, ih, List.forall_mem_cons, List.map_cons]
    constructor
    · rintro ⟨_, ⟨hle, rfl⟩, _, ⟨hrest, rfl⟩, harr⟩
      cases harr
      exact ⟨⟨hle, hrest⟩, rfl⟩
    · rintro ⟨⟨hle, hrest⟩, rfl⟩
      exact ⟨_, ⟨hle, rfl⟩, _, ⟨hrest, rfl⟩, rfl⟩

/-- The numbers are added up when their sum fits a word. -/
theorem foldlM_addU64_eq_ok_iff {ι : Type*} {xs : List ι} {f : ι → U64} {start x : U64} :
    xs.foldlM (fun sum i => addU64 sum (f i).toNat) start = .ok x ↔
      start.toNat + (xs.map fun i => (f i).toNat).sum < 2 ^ 64 ∧ x = xs.foldl (fun sum i => sum + f i) start := by
  induction xs generalizing start with
  | nil => simp [pure, Except.pure, eq_comm, start.isLt]
  | cons i xs ih =>
    simp only [List.foldlM_cons, bind_eq_ok, addU64_eq_ok_iff, ih, List.map_cons, List.sum_cons, List.foldl_cons,
      BitVec.ofNat_toNat, BitVec.setWidth_eq]
    have hsum : start.toNat + (f i).toNat < 2 ^ 64 → (start + f i).toNat = start.toNat + (f i).toNat := by
      intro hlt
      rw [BitVec.toNat_add, Nat.mod_eq_of_lt hlt]
    constructor
    · rintro ⟨_, ⟨hlt, rfl⟩, hrest, rfl⟩
      rw [hsum hlt] at hrest
      exact ⟨by omega, rfl⟩
    · rintro ⟨hlt, rfl⟩
      have hhead : start.toNat + (f i).toNat < 2 ^ 64 := by omega
      refine ⟨_, ⟨hhead, rfl⟩, ?_, rfl⟩
      rw [hsum hhead]
      omega

/-- When the score is computed: no recorded generation is before the current one, and the differences add up to a
word. It is then the score that a release build computes. -/
theorem scoreChecked_eq_ok_iff {lastAccessed : Vector U64 lastAccessedGens} {currentGen x : U64} :
    scoreChecked lastAccessed currentGen = .ok x ↔
      (∀ generation ∈ lastAccessed.toList, currentGen ≤ generation) ∧
      (((lastAccessed.toList.map fun generation => generation - currentGen).zipIdx.map fun entry =>
        (entry.1 >>> entry.2).toNat).sum < 2 ^ 64) ∧ x = score lastAccessed currentGen := by
  have hscore : score lastAccessed currentGen = (lastAccessed.toList.map fun generation =>
    generation - currentGen).zipIdx.foldl (fun sum entry => sum + entry.1 >>> entry.2) 0 := by
    obtain ⟨⟨entries⟩, hsize⟩ := lastAccessed
    match entries, hsize with
    | [a, b, c, d], _ => rfl
  simp only [scoreChecked, bind_eq_ok, mapM_subU64_eq_ok_iff]
  rw [hscore]
  constructor
  · rintro ⟨_, ⟨hle, rfl⟩, hsum⟩
    obtain ⟨hlt, rfl⟩ := foldlM_addU64_eq_ok_iff.mp hsum
    exact ⟨hle, by simpa using hlt, rfl⟩
  · rintro ⟨hle, hlt, rfl⟩
    exact ⟨_, ⟨hle, rfl⟩, foldlM_addU64_eq_ok_iff.mpr ⟨by simpa using hlt, rfl⟩⟩

/-- A page just loaded, at the next generation, has no score without wrap-around. -/
theorem not_evictionScoreChecked_new {cached : CacheMeta} {generation : U64}
    (hnew : cached.lastAccessed = RingInline.new generation)
    (scored : CacheMeta × U64) : cached.evictionScoreChecked (generation + 1) ≠ .ok scored := by
  intro h
  obtain ⟨score, hscore, -⟩ := bind_eq_ok.mp h
  obtain ⟨-, hsum, -⟩ := scoreChecked_eq_ok_iff.mp hscore
  have hentries : cached.normalize.lastAccessed.lastAccessed.toList =
      [generation, generation, generation, generation] := by
    rw [normalize, hnew, RingInline.rotateToNormalize_new]
    rfl
  have hdifference : generation - (generation + 1) = -1 := by ring
  simp only [hentries, List.map_cons, List.map_nil, hdifference] at hsum
  exact absurd hsum (by decide)

end CacheMeta

/-! ## Runs of the store -/

namespace PageStore

variable {K B P : Type} [DecidableEq B]

/-- The score of every cached page is computed without wrap-around. -/
def ScoresExactly (store : PageStore B P) : Prop := ∀ key cached, store.pageMap.lookup key = some cached →
  ∃ scored, cached.evictionScoreChecked store.lastGen = .ok scored

/-- No page is cached. -/
def NoPageCached (store : PageStore B P) : Prop := ∀ key, store.placeFor key = none

theorem NoPageCached.scoresExactly {store : PageStore B P} (hI : store.NoPageCached) : store.ScoresExactly := by
  intro key cached hcached
  have := hI key
  rw [placeFor, hcached] at this
  cases this

/-- A call that loads no page caches none. -/
theorem PlaceStep.noPageCached {store store' : PageStore B P} {loads evicts : Prop}
    (hstep : store.PlaceStep store' loads evicts) (hI : store.NoPageCached)
    (hnot : ¬loads) : store'.NoPageCached := by
  intro key
  cases hstep with
  | same _ _ places => rw [places key, hI key]
  | load _ hloads => exact absurd hloads hnot
  | evict _ _ _ _ _ places => rw [places key, hI key, ite_self]

variable [KeyExt K B] [KeyExt B B] [Pod P]

/-- A page that is loaded is recorded with the generation before the store's own. -/
structure JustLoaded (store store' : PageStore B P) (key : B) : Prop where
  recorded : ∃ cached, store'.pageMap.lookup key = some cached ∧ cached.lastAccessed = RingInline.new store.lastGen
  lastGen_eq : store'.lastGen = store.lastGen + 1

omit [KeyExt B B] [Pod P] in
theorem JustLoaded.not_scoresExactly {store store' : PageStore B P} {key : B} (h : store.JustLoaded store' key) :
    ¬store'.ScoresExactly := by
  intro hexact
  obtain ⟨cached, hcached, hnew⟩ := h.recorded
  obtain ⟨scored, hscored⟩ := hexact key cached hcached
  rw [h.lastGen_eq] at hscored
  exact CacheMeta.not_evictionScoreChecked_new hnew scored hscored

/-- A page that is fetched, and not in the cache, is just loaded. -/
theorem justLoaded_fetch {store : PageStore B P} {files : Files} {faults : Faults} {item : K} {create : Bool}
    {after : After B P CacheMeta} (h : store.fetch files faults item create = .ok after)
    (hloads : store.LoadsPage files faults item create) : store.JustLoaded after.store (KeyExt.pageBound item) := by
  cases fetchCase_of_fetch h with
  | hit hnot => exact absurd hloads hnot
  | fails hnot => exact absurd hloads hnot
  | loads => exact ⟨⟨_, AList.lookup_insert _, rfl⟩, rfl⟩

/-- A page that is handed out, and was not in the cache, is just loaded, also after a write to it. -/
theorem justLoaded_itemPageMut {store : PageStore B P} {files : Files} {faults : Faults} {item : K} {create : Bool}
    (hloads : store.LoadsPage files faults item create) : ∃ store' files' ref,
      store.itemPageMut files faults item create = .ok ⟨store', files', .ok ref⟩ ∧
        ∀ idx page, store.JustLoaded (store'.writePage idx page) (KeyExt.pageBound item) := by
  obtain ⟨hmiss, page, hpage⟩ := hloads
  rcases hload : store.loadFromDisk files faults (KeyExt.pageBound item) create with ⟨files', r⟩
  rw [hload] at hpage
  cases hpage
  exact ⟨_, _, _, store.itemPageMut_load item hmiss hload, fun _ _ => ⟨⟨_, AList.lookup_insert _, rfl⟩, rfl⟩⟩

end PageStore

namespace Traced

variable {K B P : Type} [DecidableEq B] [KeyExt K B] [KeyExt B B] [Pod P]

/-- A run of calls from a new store of which none loads a page. -/
def LoadFreeRun (K : Type) [KeyExt K B] (search : BinarySearch) (path : Path) (recs : Nat) (files : Files)
    (s : Traced B P) : Prop :=
  Reaches (fun s (op : StoreOp K B P) => ¬s.Loads op) (fun s op t => s.step search op = .ok t) (start path recs files) s

/-- A call that loads a page leaves it just loaded. -/
theorem justLoaded_step {search : BinarySearch} {s t : Traced B P} {op : StoreOp K B P} (h : s.step search op = .ok t)
    (hloads : s.Loads op) : ∃ key, s.store.JustLoaded t.store key := by
  cases ran_of_step h with
  | fetches run => exact ⟨_, PageStore.justLoaded_fetch run hloads⟩
  | refused run =>
    obtain ⟨_, _, _, hrun, -⟩ := PageStore.justLoaded_itemPageMut hloads
    cases run.symm.trans hrun
  | writes run =>
    obtain ⟨_, _, _, hrun, hjust⟩ := PageStore.justLoaded_itemPageMut hloads
    cases run.symm.trans hrun
    exact ⟨_, hjust _ _⟩
  | evicts => exact hloads.elim

/-- No page is cached through a run that loads none. -/
theorem noPageCached_of_run {search : BinarySearch} {path : Path} {recs : Nat} {files : Files} {s : Traced B P}
    (h : s.LoadFreeRun K search path recs files) : s.store.NoPageCached := by
  refine Reaches.inv (fun s : Traced B P => s.store.NoPageCached) ?_ h fun _ => rfl
  intro s op t hI hnot hstep
  exact (placeStep_step hstep).noPageCached hI hnot

end Traced

/-- When the scores are computed without wrap-around: in every state reached from a new store by calls that load no
page. A call that loads one leaves a store in which the score of the page wraps around. -/
theorem scoresExactly_of_run {K B P : Type} [DecidableEq B] [KeyExt K B] [KeyExt B B] [Pod P] {search : BinarySearch}
    {path : Path} {recs : Nat} {files : Files} {s : Traced B P} (hrun : s.LoadFreeRun K search path recs files) :
    s.store.ScoresExactly ∧
      ∀ (op : StoreOp K B P) t, s.step search op = .ok t → s.Loads op → ¬t.store.ScoresExactly := by
  refine ⟨(Traced.noPageCached_of_run hrun).scoresExactly, ?_⟩
  intro op t h hloads
  obtain ⟨key, hjust⟩ := Traced.justLoaded_step h hloads
  exact hjust.not_scoresExactly

/-- A page is asked for that is not on disk. -/
theorem scoresExactly_of_run_no_file : ∃ s : Traced IdxKey IdxPage,
    (Traced.start ["heap"] 4 fun _ => none).step (K := IdxKey) .halving (.fetch firstPage false .none) = .ok s ∧
      s.store.ScoresExactly := by
  have hfetch : (Traced.start ["heap"] 4 (fun _ => none) : Traced IdxKey IdxPage).step (K := IdxKey) .halving
      (.fetch firstPage false .none) = .ok _ := Traced.step_fetch (PageStore.fetch_fail rfl rfl)
  have hrun : Traced.LoadFreeRun IdxKey .halving ["heap"] 4 (fun _ => none) _ :=
    (Reaches.refl _).snoc (.fetch firstPage false .none) (by rintro ⟨-, page, hpage⟩; cases hpage) hfetch
  exact ⟨_, hfetch, (scoresExactly_of_run hrun).1⟩

/-- The first page loaded is recorded with generation 0, and scored at generation 1. -/
theorem score_wraps_first_page :
    ∃ s, exampleStart.step (K := IdxKey) .halving (.fetch firstPage false .none) = .ok s ∧
    ¬s.store.ScoresExactly := by
  refine ⟨_, Traced.step_fetch (exampleStart.store.fetch_load firstPage rfl (loadFromDisk_example _ _)).1, ?_⟩
  intro h
  obtain ⟨scored, hscored⟩ := h firstPage _ (AList.lookup_insert _)
  exact CacheMeta.not_evictionScoreChecked_new rfl scored hscored

end Kobzar
