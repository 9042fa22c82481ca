import Kobzar.PageStore.Score

/-!
# Access generations order pages by recency

Every access to a page takes the store's generation and leaves the store with the next one. So a run is followed
together with the accesses it made (`Watched`): the generation of an access is the number of those before it, and a
history holds no other generations than those of accesses to its page. A load fills a history, a hit overwrites one
place of it and an eviction permutes it, but the last access to a cached page is always in its history, and is the
largest (`recencyOrder_of_run`).
-/

namespace Kobzar

open Search Runs

/-! ## The generations in a history -/

namespace RingInline

/-- The generations that a ring holds, in the order of its array. -/
def generations (ring : RingInline) : List U64 := ring.lastAccessed.toList

theorem mem_generations_new {x generation : U64} : generation ∈ (new x).generations ↔ generation = x := by
  simp [generations, new, lastAccessedGens]

/-- The generation recorded is in the ring. -/
theorem mem_generations_push (ring : RingInline) (generation : U64) :
    generation ∈ (ring.push generation).generations := by
  rw [generations, push, Vector.mem_toList_iff]
  exact Vector.mem_set ring.start.isLt

/-- Recording a generation brings no other into the ring. -/
theorem mem_of_mem_generations_push {ring : RingInline} {generation g : U64}
    (h : g ∈ (ring.push generation).generations) : g = generation ∨ g ∈ ring.generations := by
  rw [generations, push, Vector.mem_toList_iff] at h
  rw [generations, Vector.mem_toList_iff, or_comm]
  exact @Vector.mem_or_eq_of_mem_set _ _ _ _ _ _ ring.start.isLt h

/-- A rotation, from whatever start, keeps the generations. -/
theorem mem_generations_rotateToNormalize {ring : RingInline} {g : U64} :
    g ∈ ring.rotateToNormalize.generations ↔ g ∈ ring.generations := by
  obtain ⟨⟨⟨entries⟩, hsize⟩, start⟩ := ring
  match entries, hsize with
  | [a, b, c, d], _ =>
    fin_cases start
    all_goals simp [generations, rotateToNormalize, rotateLeft, lastAccessedGens, Fin.exists_fin_succ]
    all_goals grind

end RingInline

namespace CacheMeta

/-- The generations in the history of a cached page. -/
def generations (cached : CacheMeta) : List U64 := cached.lastAccessed.generations

/-- A generation is the largest in the history of a cached page. -/
def Newest (cached : CacheMeta) (generation : U64) : Prop := IsGreatest {g | g ∈ cached.generations} generation

end CacheMeta

/-! ## Accesses -/

/-- An access to a page, in a generation of the store. -/
structure PageAccess (B : Type) where
  key : B
  generation : U64
  deriving DecidableEq, Repr

/-- The time of the last access to a page: the number of accesses before it. -/
def lastTime {B : Type} [DecidableEq B] (accesses : List (PageAccess B)) (key : B) : Option Nat :=
  (accesses.reverse.findIdx? fun access => access.key = key).map fun i => accesses.length - 1 - i

theorem lastTime_append {B : Type} [DecidableEq B] (accesses : List (PageAccess B)) (access : PageAccess B) (key : B) :
    lastTime (accesses ++ [access]) key = if access.key = key then some accesses.length else lastTime accesses key := by
  unfold lastTime
  rw [List.reverse_concat, List.findIdx?_cons, List.length_append, List.length_singleton]
  by_cases hkey : access.key = key
  · simp [hkey]
  · rw [if_neg (by simpa using hkey), if_neg hkey, Option.map_map]
    congr 1
    funext i
    simp only [Function.comp_apply]
    omega

/-- With one more access, each is the one that was at its place, or the new one at the end. -/
theorem getElem?_append_access {B : Type} {accesses : List (PageAccess B)} {access access' : PageAccess B} {n : Nat}
    (h : (accesses ++ [access])[n]? = some access') :
    accesses[n]? = some access' ∨ n = accesses.length ∧ access = access' := by
  rcases Nat.lt_trichotomy n accesses.length with hlt | rfl | hgt
  · rw [List.getElem?_append_left hlt] at h
    exact Or.inl h
  · rw [List.getElem?_concat_length] at h
    exact Or.inr ⟨rfl, Option.some.inj h⟩
  · rw [List.getElem?_eq_none (by simpa using hgt)] at h
    cases h

namespace PageStore

variable {K B P : Type} [DecidableEq B]

/-- The access that a call for a page made: none when the page could not be had. -/
def accessMade {ε α : Type} (store : PageStore B P) (key : B) : Except ε α → List (PageAccess B)
  | .ok _ => [{ key := key, generation := store.lastGen }]
  | .error _ => []

/-- What a call does to the histories: with no access they all keep their generations, or go, and with one access
the history of its page gets the store's generation and the others stay. -/
inductive HistoryStep (store store' : PageStore B P) : List (PageAccess B) → Prop
  | keeps (lastGen : store'.lastGen = store.lastGen)
      (entries : ∀ key cached', store'.pageMap.lookup key = some cached' →
        ∃ cached, store.pageMap.lookup key = some cached ∧ ∀ g, g ∈ cached'.generations ↔
          g ∈ cached.generations) :
      HistoryStep store store' []
  | accesses (key : B) (cached' : CacheMeta) (lastGen : store'.lastGen = store.lastGen + 1)
      (others : ∀ key', key' ≠ key → store'.pageMap.lookup key' = store.pageMap.lookup key')
      (entry : store'.pageMap.lookup key = some cached') (newest : store.lastGen ∈ cached'.generations)
      (older : ∀ g ∈ cached'.generations,
        g = store.lastGen ∨ ∃ cached, store.pageMap.lookup key = some cached ∧ g ∈ cached.generations) :
      HistoryStep store store' [{ key := key, generation := store.lastGen }]

/-- An eviction permutes the histories of the pages it keeps. -/
theorem historyStep_evict {search : BinarySearch} {store store' : PageStore B P} {count : Nat} {order : IterOrder B}
    (h : store.evict search count order = .ok store') : store.HistoryStep store' [] := by
  obtain ⟨victims, pageMap, -, hlookup, -, -, hgen, -⟩ := evict_spec h
  refine .keeps hgen fun key cached' hcached' => ?_
  rw [hlookup key] at hcached'
  split at hcached'
  · cases hcached'
  · obtain ⟨cached, hcached, rfl⟩ := Option.map_eq_some_iff.mp hcached'
    exact ⟨cached, hcached, fun g => RingInline.mem_generations_rotateToNormalize⟩

variable [KeyExt K B] [KeyExt B B] [Pod P]

/-- Fetching a page is an access to it, a hit as well as a load. -/
theorem historyStep_fetch {store : PageStore B P} {files : Files} {faults : Faults} {item : K} {create : Bool}
    {after : After B P CacheMeta} (h : store.fetch files faults item create = .ok after) :
    store.HistoryStep after.store (store.accessMade (KeyExt.pageBound item) after.result) := by
  cases fetchCase_of_fetch h with
  | @hit cached _ there =>
    refine .accesses _ (cached.touch store.lastGen) rfl (fun key' hne => AList.lookup_insert_ne hne)
      (AList.lookup_insert _)
      (RingInline.mem_generations_push _ _) fun g hg => ?_
    exact (RingInline.mem_of_mem_generations_push hg).imp_right fun hold => ⟨cached, there, hold⟩
  | fails => exact .keeps rfl fun key cached hcached => ⟨cached, hcached, fun g => Iff.rfl⟩
  | loads =>
    refine .accesses _ store.freshEntry rfl (fun key' hne => AList.lookup_insert_ne hne) (AList.lookup_insert _)
      (RingInline.mem_generations_new.mpr rfl) fun g hg => ?_
    exact Or.inl (RingInline.mem_generations_new.mp hg)

/-- Handing out a page does to the histories what fetching it does. -/
theorem historyStep_itemPageMut {store : PageStore B P} {files : Files} {faults : Faults} {item : K} {create : Bool}
    {after : After B P (PageRef P)} (h : store.itemPageMut files faults item create = .ok after) :
    store.HistoryStep after.store (store.accessMade (KeyExt.pageBound item) after.result) := by
  obtain ⟨⟨store', files', result⟩, hfetch, hcase⟩ := handsOut_of_itemPageMut h
  have hstep := historyStep_fetch hfetch
  cases hcase with
  | refused failed =>
    rw [failed] at hstep
    exact hstep
  | marked found there =>
    rw [found] at hstep
    -- the mark leaves the history of the entry as it is
    cases hstep with
    | accesses _ cached lastGen others entry newest older =>
      obtain rfl := Option.some.inj (entry.symm.trans there)
      refine .accesses _ { cached with dirty := true } lastGen (fun key' hne => ?_) (AList.lookup_insert _) newest older
      rw [AList.lookup_insert_ne hne, others key' hne]

end PageStore

/-! ## Runs with their accesses -/

/-- A store and its files, with the accesses made so far. -/
structure Watched (B P : Type) where
  traced : Traced B P
  accesses : List (PageAccess B)

namespace Traced

variable {K B P : Type} [DecidableEq B] [KeyExt K B] [KeyExt B B] [Pod P]

/-- The access that a call makes. -/
def accessOf (s : Traced B P) : StoreOp K B P → List (PageAccess B)
  | .fetch key create faults =>
    match s.store.fetch s.files faults key create with
    | .ok after => s.store.accessMade (KeyExt.pageBound key) after.result
    | .error _ => []
  | .itemPageMut key create faults _ =>
    match s.store.itemPageMut s.files faults key create with
    | .ok after => s.store.accessMade (KeyExt.pageBound key) after.result
    | .error _ => []
  | .evict _ _ => []

/-- A call makes one access at most. -/
theorem length_accessOf_le (s : Traced B P) (op : StoreOp K B P) : (s.accessOf op).length ≤ 1 := by
  have hmade : ∀ {ε α : Type} (key : B) (result : Except ε α), (s.store.accessMade key result).length ≤ 1 := by
    intro ε α key result
    cases result with
    | ok _ => exact Nat.le_refl 1
    | error _ => exact Nat.zero_le 1
  cases op with
  | fetch key create faults =>
    rw [accessOf]
    split
    · exact hmade _ _
    · exact Nat.zero_le 1
  | itemPageMut key create faults change =>
    rw [accessOf]
    split
    · exact hmade _ _
    · exact Nat.zero_le 1
  | evict count order => exact Nat.zero_le 1

/-- What a call does to the histories. -/
theorem historyStep_step {search : BinarySearch} {s t : Traced B P} {op : StoreOp K B P} (h : s.step search op = .ok t) :
    s.store.HistoryStep t.store (s.accessOf op) := by
  cases ran_of_step h with
  | fetches run =>
    simp only [accessOf, run]
    exact PageStore.historyStep_fetch run
  | refused run =>
    simp only [accessOf, run]
    exact PageStore.historyStep_itemPageMut run
  | writes run =>
    simp only [accessOf, run]
    -- a write to a page changes no history
    cases PageStore.historyStep_itemPageMut run with
    | accesses _ cached' lastGen others entry newest older => exact .accesses _ cached' lastGen others entry newest older
  | evicts run => exact PageStore.historyStep_evict run

end Traced

namespace Watched

variable {K B P : Type} [DecidableEq B] [KeyExt K B] [KeyExt B B] [Pod P]

/-- A new store, before any call. -/
def start (path : Path) (recs : Nat) (files : Files) : Watched B P where
  traced := Traced.start path recs files
  accesses := []

/-- One call, and the access that it makes. -/
def step (search : BinarySearch) (s : Watched B P) (op : StoreOp K B P) : Outcome (Watched B P) := do
  let traced ← s.traced.step search op
  return { traced := traced, accesses := s.accesses ++ s.traced.accessOf op }

/-- A run of calls from a new store, with its accesses. -/
def AnyRun (K : Type) [KeyExt K B] (search : BinarySearch) (path : Path) (recs : Nat) (files : Files)
    (s : Watched B P) : Prop :=
  Reaches (fun _ (_ : StoreOp K B P) => True) (fun s op t => s.step search op = .ok t) (start path recs files) s

theorem step_ok {search : BinarySearch} {s : Watched B P} {op : StoreOp K B P} {t : Traced B P}
    (h : s.traced.step search op = .ok t) :
    s.step search op = .ok { traced := t, accesses := s.accesses ++ s.traced.accessOf op } := by
  simp only [step, h, ok_bind]
  rfl

end Watched

namespace PageStore

variable {B P : Type} [DecidableEq B]

/-- The histories follow the accesses: as many were made as the store has generations, each in the generation that
counts those before it; a history holds generations of accesses to its page only, and that of the last one. -/
structure FollowsAccesses (store : PageStore B P) (accesses : List (PageAccess B)) : Prop where
  numbered : store.lastGen.toNat = accesses.length
  counted : ∀ (n : Nat) (key : B) (g : U64), accesses[n]? = some ⟨key, g⟩ → g.toNat = n
  recorded : ∀ key cached, store.pageMap.lookup key = some cached → ∀ g ∈ cached.generations,
    ⟨key, g⟩ ∈ accesses
  last : ∀ key cached, store.pageMap.lookup key = some cached →
    ∃ n g, lastTime accesses key = some n ∧ accesses[n]? = some ⟨key, g⟩ ∧ cached.Newest g

/-- A new store follows no access. -/
theorem followsAccesses_openAt (path : Path) (recs : Nat) : (openAt path recs : PageStore B P).FollowsAccesses [] where
  numbered := rfl
  counted n key g h := by simp at h
  recorded key cached h := by simp [openAt] at h
  last key cached h := by simp [openAt] at h

variable {store store' : PageStore B P} {accesses : List (PageAccess B)}

/-- A generation in a history is before the store's own. -/
theorem FollowsAccesses.lt_lastGen (hI : store.FollowsAccesses accesses) {key : B} {cached : CacheMeta}
    (hcached : store.pageMap.lookup key = some cached) {g : U64} (hg : g ∈ cached.generations) : g < store.lastGen := by
  obtain ⟨n, haccess⟩ := List.mem_iff_getElem?.mp (hI.recorded key cached hcached g hg)
  have hcount := hI.counted n key g haccess
  have hn := (List.getElem?_eq_some_iff.mp haccess).1
  rw [BitVec.lt_def, hI.numbered]
  omega

/-- A generation is in the histories of one page at most. -/
theorem FollowsAccesses.key_eq (hI : store.FollowsAccesses accesses) {key key' : B} {cached cached' : CacheMeta}
    (hcached : store.pageMap.lookup key = some cached) (hcached' : store.pageMap.lookup key' = some cached') {g : U64}
    (hg : g ∈ cached.generations) (hg' : g ∈ cached'.generations) : key = key' := by
  obtain ⟨n, haccess⟩ := List.mem_iff_getElem?.mp (hI.recorded key cached hcached g hg)
  obtain ⟨m, haccess'⟩ := List.mem_iff_getElem?.mp (hI.recorded key' cached' hcached' g hg')
  obtain rfl : n = m := (hI.counted n key g haccess).symm.trans (hI.counted m key' g haccess')
  rw [haccess] at haccess'
  cases haccess'
  rfl

/-- One call keeps the histories to the accesses, while these are fewer than there are words. -/
theorem HistoryStep.followsAccesses {made : List (PageAccess B)} (hstep : store.HistoryStep store' made)
    (hI : store.FollowsAccesses accesses) (hfew : (accesses ++ made).length < 2 ^ 64) :
    store'.FollowsAccesses (accesses ++ made) := by
  cases hstep with
  | keeps lastGen entries =>
    rw [List.append_nil]
    refine ⟨by rw [lastGen, hI.numbered], hI.counted, fun key cached' hcached' g hg => ?_,
      fun key cached' hcached' => ?_⟩
    · obtain ⟨cached, hcached, hsame⟩ := entries key cached' hcached'
      exact hI.recorded key cached hcached g ((hsame g).mp hg)
    · obtain ⟨cached, hcached, hsame⟩ := entries key cached' hcached'
      obtain ⟨n, g, htime, haccess, hnewest⟩ := hI.last key cached hcached
      refine ⟨n, g, htime, haccess, ?_⟩
      simpa only [CacheMeta.Newest, hsame] using hnewest
  | accesses key cached' lastGen others entry newest older =>
    rw [List.length_append, List.length_singleton] at hfew
    refine ⟨?_, fun n key' g haccess => ?_, fun key' c' hc' g hg => ?_, fun key' c' hc' => ?_⟩
    · rw [lastGen, List.length_append, List.length_singleton, BitVec.toNat_add, hI.numbered]
      exact Nat.mod_eq_of_lt hfew
    · rcases getElem?_append_access haccess with hold | ⟨rfl, heq⟩
      · exact hI.counted n key' g hold
      · cases heq
        exact hI.numbered
    · by_cases hkey : key' = key
      · subst hkey
        obtain rfl : cached' = c' := Option.some.inj (entry.symm.trans hc')
        rcases older g hg with rfl | ⟨cached, hcached, hold⟩
        · exact List.mem_append_right _ (List.mem_singleton_self _)
        · exact List.mem_append_left _ (hI.recorded key' cached hcached g hold)
      · rw [others key' hkey] at hc'
        exact List.mem_append_left _ (hI.recorded key' c' hc' g hg)
    · rw [lastTime_append]
      by_cases hkey : key' = key
      · subst hkey
        obtain rfl : cached' = c' := Option.some.inj (entry.symm.trans hc')
        refine ⟨accesses.length, store.lastGen, if_pos rfl, List.getElem?_concat_length, newest, fun g hg => ?_⟩
        rcases older g hg with rfl | ⟨cached, hcached, hold⟩
        · exact BitVec.le_refl _
        · exact BitVec.le_of_lt (hI.lt_lastGen hcached hold)
      · rw [others key' hkey] at hc'
        obtain ⟨n, g, htime, haccess, hnewest⟩ := hI.last key' c' hc'
        have hn := (List.getElem?_eq_some_iff.mp haccess).1
        exact ⟨n, g, by rw [if_neg (Ne.symm hkey), htime], by rw [List.getElem?_append_left hn, haccess], hnewest⟩

/-- The histories of the cached pages order these by recency. -/
structure RecencyOrder (store : PageStore B P) (accesses : List (PageAccess B)) : Prop where
  /-- Every generation in a history is before the store's own. -/
  below : ∀ key cached, store.pageMap.lookup key = some cached → ∀ g ∈ cached.generations, g < store.lastGen
  /-- No generation is in the histories of two pages. -/
  apart : ∀ key key' cached cached', store.pageMap.lookup key = some cached →
    store.pageMap.lookup key' = some cached' → key ≠ key' → ∀ g ∈ cached.generations, g ∉ cached'.generations
  /-- The largest generation in a history is the one of the last access to the page. -/
  newest : ∀ key cached, store.pageMap.lookup key = some cached →
    ∃ n g, lastTime accesses key = some n ∧ accesses[n]? = some ⟨key, g⟩ ∧ cached.Newest g
  /-- Of two pages, the one with the larger largest generation is the one accessed last. -/
  ordered : ∀ key key' cached cached' g g', store.pageMap.lookup key = some cached →
    store.pageMap.lookup key' = some cached' → cached.Newest g → cached'.Newest g' →
    ∃ n n', lastTime accesses key = some n ∧ lastTime accesses key' = some n' ∧ (g < g' ↔ n < n')

/-- The largest generation in a history is one only. -/
theorem newest_unique {cached : CacheMeta} {g g' : U64} (h : cached.Newest g) (h' : cached.Newest g') : g = g' := by
  have hle := BitVec.le_def.mp (h'.2 h.1)
  have hge := BitVec.le_def.mp (h.2 h'.1)
  exact BitVec.eq_of_toNat_eq (Nat.le_antisymm hle hge)

/-- Histories that follow the accesses order the pages by recency. -/
theorem FollowsAccesses.recencyOrder (hI : store.FollowsAccesses accesses) : store.RecencyOrder accesses where
  below _ _ hcached _ hg := hI.lt_lastGen hcached hg
  apart _ _ _ _ hcached hcached' hne _ hg hg' := hne (hI.key_eq hcached hcached' hg hg')
  newest := hI.last
  ordered key key' cached cached' g g' hcached hcached' hg hg' := by
    obtain ⟨n, h, htime, haccess, hnewest⟩ := hI.last key cached hcached
    obtain ⟨n', h', htime', haccess', hnewest'⟩ := hI.last key' cached' hcached'
    obtain rfl := newest_unique hg hnewest
    obtain rfl := newest_unique hg' hnewest'
    refine ⟨n, n', htime, htime', ?_⟩
    rw [BitVec.lt_def, hI.counted n key g haccess, hI.counted n' key' g' haccess']

end PageStore

/-- In every state that a run of calls from a new store reaches with fewer than `2 ^ 64` accesses, the generations in the
histories of the cached pages order these by recency. -/
theorem recencyOrder_of_run {K B P : Type} [DecidableEq B] [KeyExt K B] [KeyExt B B] [Pod P] {search : BinarySearch}
    {path : Path} {recs : Nat} {files : Files} {s : Watched B P} (hrun : s.AnyRun K search path recs files)
    (hfew : s.accesses.length < 2 ^ 64) : s.traced.store.RecencyOrder s.accesses := by
  refine (Reaches.inv (fun s : Watched B P => s.accesses.length < 2 ^ 64 →
    s.traced.store.FollowsAccesses s.accesses) ?_ hrun
    fun _ => PageStore.followsAccesses_openAt path recs) hfew |>.recencyOrder
  intro s op t hI _ hstep hfew
  obtain ⟨traced, htraced, ht⟩ := bind_eq_ok.mp hstep
  cases ht
  refine (Traced.historyStep_step htraced).followsAccesses (hI ?_) hfew
  rw [List.length_append] at hfew
  omega

/-- The first page of an index is fetched and the second filled with ones. -/
theorem recencyOrder_of_run_two_pages : ∃ s₁ s₂ : Watched IdxKey IdxPage,
    (Watched.start ["heap"] 4 exampleFiles).step (K := IdxKey) .halving (.fetch firstPage false .none) = .ok s₁ ∧
      s₁.step .halving fillSecondPage = .ok s₂ ∧ s₂.traced.store.RecencyOrder s₂.accesses := by
  have hfirst : (Watched.start ["heap"] 4 exampleFiles : Watched IdxKey IdxPage).step (K := IdxKey) .halving
      (.fetch firstPage false .none) = .ok _ :=
    Watched.step_ok (Traced.step_fetch (exampleStart.store.fetch_load firstPage rfl (loadFromDisk_example _ _)).1)
  have hfill (accesses : List (PageAccess IdxKey)) := Watched.step_ok (s := { traced := _, accesses })
    (Traced.step_itemPageMut .halving
      { exampleStart with store := exampleStart.store.addPage firstPage (pageOf 0), files := exampleFiles }
        (fun _ => pageOf 1)
      (PageStore.itemPageMut_load _ secondPage rfl (loadFromDisk_example _ _)))
  have hrun : Watched.AnyRun IdxKey .halving ["heap"] 4 exampleFiles _ :=
    ((Reaches.refl _).snoc (.fetch firstPage false .none) trivial hfirst).snoc fillSecondPage trivial (hfill _)
  refine ⟨_, _, hfirst, hfill _, recencyOrder_of_run hrun ?_⟩
  -- each of the two calls makes one access at most
  have hone : ∀ (s : Traced IdxKey IdxPage) (op : StoreOp IdxKey IdxKey IdxPage), (s.accessOf op).length ≤ 1 :=
    Traced.length_accessOf_le
  simp only [List.length_append]
  refine Nat.lt_of_le_of_lt (Nat.add_le_add (Nat.add_le_add (Nat.le_refl 0) (hone _ _)) (hone _ _)) (by norm_num)

end Kobzar
