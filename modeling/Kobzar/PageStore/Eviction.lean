import Kobzar.Library.Loop
import Kobzar.PageStore.Store

/-!
# What eviction drops

The scoring loop keeps the pages chosen so far sorted by score and lets the last one go when it is full, so that
the pages it ends with are the ones of lowest score (`Scoring.rest`). Hence a page with enough cached pages scored
below it is never evicted (`lowerScored_lt_of_victim`).
-/

namespace Kobzar

open Search Loop

variable {B P : Type}

/-- The pages chosen so far are sorted by score. -/
def Ranked (xs : List (Scored B)) : Prop := xs.Pairwise fun a b => a.score.toNat ≤ b.score.toNat

/-! ## Choosing one more page -/

/-- Where a binary search puts a page among those chosen so far: none before the place scores higher, none behind
it lower. -/
theorem placeOf_spec (search : BinarySearch) {xs : List (Scored B)} (hr : Ranked xs) (score : U64) :
    placeOf search xs score ≤ xs.length ∧ ∀ j (hj : j < xs.length),
      (j < placeOf search xs score → xs[j].score.toNat ≤ score.toNat) ∧
        (placeOf search xs score ≤ j → score.toNat ≤ xs[j].score.toNat) := by
  have hans := search.run_answers (Cut.of_sorted (fun s : Scored B => s.score.toNat) score.toNat hr)
  have hmono : ∀ i j (hi : i < xs.length) (hj : j < xs.length), i ≤ j →
      xs[i].score.toNat ≤ xs[j].score.toNat := by
    intro i j hi hj hij
    rcases Nat.lt_or_eq_of_le hij with hlt | rfl
    · exact List.pairwise_iff_getElem.mp hr i j hi hj hlt
    · exact Nat.le_refl _
  unfold placeOf
  cases hrun : search.run (fun s => compare s.score.toNat score.toNat) xs with
  | ok i =>
    rw [hrun] at hans
    obtain ⟨hi, heq⟩ := hans
    have hscore := compare_eq_iff_eq.mp heq
    refine ⟨Nat.le_of_lt hi, fun j hj => ⟨fun hlt => ?_, fun hle => ?_⟩⟩
    · have := hmono j i hj hi (Nat.le_of_lt hlt)
      omega
    · have := hmono i j hi hj hle
      omega
  | error i =>
    rw [hrun] at hans
    obtain ⟨hi, hside⟩ := hans
    refine ⟨hi, fun j hj => ⟨fun hlt => ?_, fun hle => ?_⟩⟩
    · have hj' := hside j hj
      rw [if_pos hlt] at hj'
      exact Nat.le_of_lt (compare_lt_iff_lt.mp hj')
    · have hj' := hside j hj
      rw [if_neg (Nat.not_lt.mpr hle)] at hj'
      exact Nat.le_of_lt (compare_gt_iff_gt.mp hj')

/-- A page put in its place among sorted pages leaves them sorted. -/
theorem ranked_insertIdx {xs : List (Scored B)} (hr : Ranked xs) {x : Scored B} {idx : Nat}
    (hplace : ∀ j (hj : j < xs.length),
      (j < idx → xs[j].score.toNat ≤ x.score.toNat) ∧ (idx ≤ j → x.score.toNat ≤ xs[j].score.toNat)) :
    Ranked (xs.insertIdx idx x) := by
  induction xs generalizing idx with
  | nil =>
    cases idx with
    | zero => exact List.pairwise_singleton _ x
    | succ idx => exact List.Pairwise.nil
  | cons y ys ih =>
    obtain ⟨hy, hys⟩ := List.pairwise_cons.mp hr
    cases idx with
    | zero =>
      refine List.pairwise_cons.mpr ⟨fun z hz => ?_, hr⟩
      obtain ⟨j, hj, rfl⟩ := List.getElem_of_mem hz
      exact (hplace j hj).2 (Nat.zero_le j)
    | succ idx =>
      refine List.pairwise_cons.mpr ⟨fun z hz => ?_, ih hys fun j hj => ?_⟩
      · rcases List.eq_or_mem_of_mem_insertIdx hz with rfl | hz
        · exact (hplace 0 (by simp)).1 (Nat.zero_lt_succ idx)
        · exact hy z hz
      · have hj' := hplace (j + 1) (by simpa using hj)
        exact ⟨fun hlt => hj'.1 (by omega), fun hle => hj'.2 (by omega)⟩

/-- What choosing one more page does, when it does not panic: the pages stay sorted; while there is room the page
is added, and when there is none the last page makes room for one that scores no higher. -/
theorem retain_spec {search : BinarySearch} {count : Nat} {toEvict out : List (Scored B)} {x : Scored B}
    (hr : Ranked toEvict) (hlen : toEvict.length ≤ max count 1) (h : retain search count toEvict x = .ok out) :
    Ranked out ∧
      ((toEvict.length < max count 1 ∧ out.Perm (x :: toEvict)) ∨
        (toEvict.length = max count 1 ∧ out.Perm (x :: toEvict.dropLast) ∧
          ∃ last ∈ toEvict, x.score.toNat ≤ last.score.toNat ∧ toEvict = toEvict.dropLast ++ [last])) := by
  obtain ⟨hle, hplace⟩ := placeOf_spec search hr x.score
  unfold retain at h
  obtain ⟨idx, hidx⟩ : ∃ idx, idx = placeOf search toEvict x.score := ⟨_, rfl⟩
  simp only [← hidx] at h hle hplace
  by_cases hfull : count ≤ toEvict.length
  · rw [if_pos hfull] at h
    rcases List.eq_nil_or_concat' toEvict with rfl | ⟨front, last, rfl⟩
    · -- an empty list has nothing to drop
      have hzero : idx = 0 := by simpa using hle
      subst hzero
      cases h
      exact ⟨List.pairwise_singleton _ x, Or.inl ⟨by simp, List.Perm.refl _⟩⟩
    · simp only [List.dropLast_concat, insertAt, List.length_append, List.length_singleton] at h hlen hfull hle ⊢
      split at h
      · rename_i hroom
        cases h
        have hfront : ∀ j (hj : j < front.length), (j < idx → front[j].score.toNat ≤ x.score.toNat) ∧
            (idx ≤ j → x.score.toNat ≤ front[j].score.toNat) := by
          intro j hj
          have hj' := hplace j (by simp; omega)
          rwa [List.getElem_append_left hj] at hj'
        have hlast := (hplace front.length (by simp)).2 hroom
        simp only [List.getElem_concat_length] at hlast
        refine ⟨ranked_insertIdx (List.pairwise_append.mp hr).1 hfront,
          Or.inr ⟨by omega, ?_, last, by simp, hlast, rfl⟩⟩
        exact List.perm_insertIdx x front hroom
      · cases h
  · rw [if_neg hfull] at h
    simp only [insertAt, hle, if_true] at h
    cases h
    exact ⟨ranked_insertIdx hr hplace, Or.inl ⟨by omega, List.perm_insertIdx x toEvict hle⟩⟩

/-- Choosing one more page chooses that page and keeps some of those chosen before, within the bound. -/
theorem retain_kept {search : BinarySearch} {count : Nat} {toEvict out : List (Scored B)} {x : Scored B}
    (hr : Ranked toEvict) (hlen : toEvict.length ≤ max count 1) (h : retain search count toEvict x = .ok out) :
    out.length ≤ max count 1 ∧ ∃ kept, kept.Sublist toEvict ∧ out.Perm (x :: kept) := by
  rcases (retain_spec hr hlen h).2 with ⟨hroom, hperm⟩ | ⟨hfull, hperm, -⟩
  · refine ⟨?_, toEvict, List.Sublist.refl _, hperm⟩
    rw [hperm.length_eq, List.length_cons]
    exact hroom
  · refine ⟨?_, toEvict.dropLast, List.dropLast_sublist _, hperm⟩
    rw [hperm.length_eq, List.length_cons, List.length_dropLast]
    omega

/-! ## The scoring loop -/

/-- The eviction score of a cached page in a generation, as a number. -/
def CacheMeta.scoreAt (cached : CacheMeta) (lastGen : U64) : Nat := (cached.evictionScore lastGen).2.toNat

namespace PageStore

variable [DecidableEq B]

/-- A page chosen for eviction is a cached page with its place and its score. -/
def Chosen (store : PageStore B P) (scored : Scored B) : Prop :=
  ∃ cached, store.pageMap.lookup scored.key = some cached ∧ scored.idx = cached.idx ∧
    scored.score.toNat = cached.scoreAt store.lastGen

/-- Where the scoring loop is after it visited some keys: their histories are normalised, and the pages chosen are,
of those visited, the ones of lowest score, all of them while they are fewer than may be chosen. -/
structure Scoring (store : PageStore B P) (count : Nat) (done : List B) (pass : PageMap B × List (Scored B)) : Prop where
  lookup : ∀ key, pass.1.lookup key =
    if key ∈ done then (store.pageMap.lookup key).map CacheMeta.normalize else store.pageMap.lookup key
  ranked : Ranked pass.2
  length_le : pass.2.length ≤ max count 1
  chosen : ∀ scored ∈ pass.2, scored.key ∈ done ∧ store.Chosen scored
  nodup : (pass.2.map (·.key)).Nodup
  rest : ∀ key ∈ done, key ∉ pass.2.map (·.key) → ∀ cached, store.pageMap.lookup key = some cached →
    pass.2.length = max count 1 ∧ ∀ scored ∈ pass.2, scored.score.toNat ≤ cached.scoreAt store.lastGen

/-- The loop starts with nothing visited and nothing chosen. -/
theorem scoring_start (store : PageStore B P) (count : Nat) : store.Scoring count [] (store.pageMap, []) where
  lookup _ := by simp
  ranked := List.Pairwise.nil
  length_le := Nat.zero_le _
  chosen _ h := absurd h List.not_mem_nil
  nodup := List.nodup_nil
  rest _ h := absurd h List.not_mem_nil

/-- Adding to the visited keys one that is not cached changes nothing. -/
theorem Scoring.skip {store : PageStore B P} {count : Nat} {done : List B} {pass : PageMap B × List (Scored B)} {key : B}
    (hI : store.Scoring count done pass) (hnone : store.pageMap.lookup key = none) :
    store.Scoring count (done ++ [key]) pass where
  lookup k := by
    rw [hI.lookup k]
    by_cases hk : k = key
    · subst hk
      simp [hnone]
    · simp [hk]
  ranked := hI.ranked
  length_le := hI.length_le
  chosen scored h := ⟨List.mem_append_left _ (hI.chosen scored h).1, (hI.chosen scored h).2⟩
  nodup := hI.nodup
  rest k hk hnot cached hcached := by
    rcases List.mem_append.mp hk with hk | hk
    · exact hI.rest k hk hnot cached hcached
    · obtain rfl := List.mem_singleton.mp hk
      rw [hnone] at hcached
      cases hcached

/-- When one more page is chosen, a visited page that is not chosen then is still one that scores no lower than
those chosen. -/
theorem Scoring.rest_retain {search : BinarySearch} {store : PageStore B P} {count : Nat} {done : List B}
    {pass : PageMap B × List (Scored B)} (hI : store.Scoring count done pass) {x : Scored B} {out : List (Scored B)}
    (h : retain search count pass.2 x = .ok out) {key : B} (hdone : key ∈ done) (hnot : key ∉ out.map (·.key))
    {cached : CacheMeta} (hcached : store.pageMap.lookup key = some cached) :
    out.length = max count 1 ∧ ∀ scored ∈ out, scored.score.toNat ≤ cached.scoreAt store.lastGen := by
  rcases (retain_spec hI.ranked hI.length_le h).2 with ⟨hroom, hperm⟩ | ⟨hfull, hperm, last, hlast, hxlast, heq⟩
  · -- while there is room, every page visited is chosen
    have hout : key ∉ pass.2.map (·.key) := fun hmem =>
      hnot ((hperm.map (·.key)).mem_iff.mpr (List.mem_cons_of_mem _ hmem))
    have := (hI.rest key hdone hout cached hcached).1
    omega
  · -- the page that made room scores highest of those chosen, and is the only one not chosen any more
    have hbound : last.score.toNat ≤ cached.scoreAt store.lastGen := by
      by_cases hin : key ∈ pass.2.map (·.key)
      · obtain ⟨y, hy, rfl⟩ := List.mem_map.mp hin
        have hylast : y = last := by
          rw [heq, List.mem_append, List.mem_singleton] at hy
          refine hy.resolve_left fun hfront => hnot (List.mem_map.mpr ⟨y, ?_, rfl⟩)
          exact hperm.mem_iff.mpr (List.mem_cons_of_mem _ hfront)
        subst hylast
        obtain ⟨-, c, hc, -, hscore⟩ := hI.chosen y hlast
        rw [hcached] at hc
        cases hc
        exact Nat.le_of_eq hscore
      · exact (hI.rest key hdone hin cached hcached).2 last hlast
    refine ⟨?_, fun y hy => ?_⟩
    · rw [hperm.length_eq, List.length_cons, List.length_dropLast]
      omega
    · rcases List.mem_cons.mp (hperm.mem_iff.mp hy) with rfl | hfront
      · exact Nat.le_trans hxlast hbound
      · have hsorted := hI.ranked
        rw [heq] at hsorted
        exact Nat.le_trans ((List.pairwise_append.mp hsorted).2.2 y hfront last (by simp)) hbound

/-- Choosing a page not visited before is one pass of the scoring loop. -/
theorem Scoring.choose {search : BinarySearch} {store : PageStore B P} {count : Nat} {done : List B}
    {pass : PageMap B × List (Scored B)} (hI : store.Scoring count done pass) {x : Scored B} (hnew : x.key ∉ done)
    {cached : CacheMeta} (hcached : store.pageMap.lookup x.key = some cached) (hchosen : store.Chosen x)
    {out : List (Scored B)} (h : retain search count pass.2 x = .ok out) :
    store.Scoring count (done ++ [x.key]) (pass.1.insert x.key cached.normalize, out) := by
  obtain ⟨hlen, kept, hkept, hperm⟩ := retain_kept hI.ranked hI.length_le h
  refine ⟨?_, (retain_spec hI.ranked hI.length_le h).1, hlen, ?_, ?_, ?_⟩
  · intro k
    by_cases hk : k = x.key
    · subst hk
      rw [AList.lookup_insert, if_pos (by simp), hcached]
      rfl
    · rw [AList.lookup_insert_ne hk, hI.lookup k]
      simp [hk]
  · intro y hy
    rcases List.mem_cons.mp (hperm.mem_iff.mp hy) with rfl | hy
    · exact ⟨by simp, hchosen⟩
    · obtain ⟨hdone, hchosen⟩ := hI.chosen y (hkept.subset hy)
      exact ⟨List.mem_append_left _ hdone, hchosen⟩
  · rw [(hperm.map (·.key)).nodup_iff, List.map_cons, List.nodup_cons]
    refine ⟨?_, hI.nodup.sublist (hkept.map _)⟩
    intro hmem
    obtain ⟨y, hy, hykey⟩ := List.mem_map.mp hmem
    exact hnew (hykey ▸ (hI.chosen y (hkept.subset hy)).1)
  · intro k hk hnot other hother
    rcases List.mem_append.mp hk with hk | hk
    · exact hI.rest_retain h hk hnot hother
    · refine absurd (List.mem_map.mpr ⟨x, hperm.mem_iff.mpr List.mem_cons_self, ?_⟩) hnot
      exact (List.mem_singleton.mp hk).symm

/-- One pass of the scoring loop over a key not visited before. -/
theorem scorePage_step {search : BinarySearch} {store : PageStore B P} {count : Nat} {done : List B}
    {pass pass' : PageMap B × List (Scored B)} {key : B} (hI : store.Scoring count done pass) (hnew : key ∉ done)
    (h : scorePage search count store.lastGen pass key = .ok pass') : store.Scoring count (done ++ [key]) pass' := by
  have hlookup := hI.lookup key
  rw [if_neg hnew] at hlookup
  unfold scorePage at h
  cases hcached : store.pageMap.lookup key with
  | none =>
    rw [hcached] at hlookup
    rw [hlookup] at h
    cases h
    exact hI.skip hcached
  | some cached =>
    rw [hcached] at hlookup
    rw [hlookup] at h
    obtain ⟨out, hret, hout⟩ := bind_eq_ok.mp h
    cases hout
    exact hI.choose hnew hcached ⟨cached, hcached, rfl, rfl⟩ hret

/-! ## The whole eviction -/

/-- The map without the pages chosen. -/
theorem lookup_foldl_erase (victims : List (Scored B)) (pageMap : PageMap B) (key : B) :
    (victims.foldl (fun pageMap scored => pageMap.erase scored.key) pageMap).lookup key =
      if key ∈ victims.map (·.key) then none else pageMap.lookup key := by
  induction victims generalizing pageMap with
  | nil => simp
  | cons x victims ih =>
    rw [List.foldl_cons, ih, List.map_cons]
    by_cases hx : key = x.key
    · subst hx
      simp
    · rw [AList.lookup_erase_ne hx]
      simp [hx]

/-- An eviction that ends visited every cached page: it drops the pages chosen, gives their places to the vacant ones, and
leaves the pages, the generation and the path as they are. -/
theorem evict_spec {search : BinarySearch} {store store' : PageStore B P} {count : Nat} {order : IterOrder B}
    (h : store.evict search count order = .ok store') : ∃ victims : List (Scored B), ∃ pageMap : PageMap B,
      store.Scoring count (order.arrange store.pageMap.keys) (pageMap, victims) ∧
      (∀ key, store'.pageMap.lookup key =
        if key ∈ victims.map (·.key) then none else (store.pageMap.lookup key).map CacheMeta.normalize) ∧
      store'.pages = store.pages ∧ store'.path = store.path ∧ store'.lastGen = store.lastGen ∧
      store'.vacantPages = store.vacantPages ++ victims.map fun scored => BitVec.ofNat 32 scored.idx := by
  obtain ⟨toEvict, hroom, h⟩ := bind_eq_ok.mp h
  obtain ⟨-, rfl⟩ := ite_eq_ok_iff.mp hroom
  obtain ⟨⟨pageMap, victims⟩, hloop, hstore⟩ := bind_eq_ok.mp h
  cases hstore
  have hnodup : (order.arrange store.pageMap.keys).Nodup :=
    (order.arrange_perm _).nodup_iff.mpr store.pageMap.keys_nodup
  have hI : store.Scoring count (order.arrange store.pageMap.keys) (pageMap, victims) := by
    refine foldlM_inv (fun done pass => store.Scoring count done pass) (scoring_start store count) ?_ hloop
    intro done key rest pass pass' hkeys hI hpass
    refine scorePage_step hI ?_ hpass
    rw [hkeys, List.nodup_append] at hnodup
    exact fun hmem => hnodup.2.2 key hmem key List.mem_cons_self rfl
  refine ⟨victims, pageMap, hI, ?_, rfl, rfl, rfl, rfl⟩
  intro key
  rw [lookup_foldl_erase, hI.lookup key]
  by_cases hkey : key ∈ order.arrange store.pageMap.keys
  · rw [if_pos hkey]
  · have hnone : store.pageMap.lookup key = none := by
      rw [AList.lookup_eq_none, AList.mem_keys]
      exact fun hmem => hkey ((order.arrange_perm _).mem_iff.mpr hmem)
    simp [hkey, hnone]

/-- The keys of the cached pages that score below a given score. -/
def lowerScored (store : PageStore B P) (score : Nat) : List B :=
  store.pageMap.keys.filter fun key =>
    match store.pageMap.lookup key with
    | some cached => decide (cached.scoreAt store.lastGen < score)
    | none => false

theorem mem_lowerScored {store : PageStore B P} {score : Nat} {key : B} : key ∈ store.lowerScored score ↔
    ∃ cached, store.pageMap.lookup key = some cached ∧ cached.scoreAt store.lastGen < score := by
  rw [lowerScored, List.mem_filter, ← AList.mem_keys, ← AList.lookup_isSome]
  cases store.pageMap.lookup key with
  | none => simp
  | some cached => simp

/-- Fewer cached pages score below an evicted page than are evicted. -/
theorem lowerScored_lt_of_victim {store : PageStore B P} {count : Nat} {order : IterOrder B} {victims : List (Scored B)}
    {pageMap : PageMap B} (hI : store.Scoring count (order.arrange store.pageMap.keys) (pageMap, victims)) {x : Scored B}
    (hx : x ∈ victims) : (store.lowerScored x.score.toNat).length < max count 1 := by
  have hsub : store.lowerScored x.score.toNat ⊆ (victims.erase x).map (·.key) := by
    intro key hkey
    obtain ⟨cached, hcached, hlow⟩ := mem_lowerScored.mp hkey
    have hvisited : key ∈ order.arrange store.pageMap.keys := by
      rw [(order.arrange_perm _).mem_iff, ← AList.mem_keys, ← AList.lookup_isSome, hcached]
      rfl
    by_cases hin : key ∈ victims.map (·.key)
    · obtain ⟨y, hy, rfl⟩ := List.mem_map.mp hin
      obtain ⟨-, c, hc, -, hscore⟩ := hI.chosen y hy
      rw [hcached] at hc
      cases hc
      have hne : y ≠ x := by
        rintro rfl
        omega
      exact List.mem_map.mpr ⟨y, (List.mem_erase_of_ne hne).mpr hy, rfl⟩
    · have := (hI.rest key hvisited hin cached hcached).2 x hx
      omega
  have hnodup : (store.lowerScored x.score.toNat).Nodup := store.pageMap.keys_nodup.filter _
  have hle := (hnodup.subperm hsub).length_le
  rw [List.length_map, List.length_erase_of_mem hx] at hle
  have hpos := List.length_pos_of_mem hx
  have hcount : victims.length ≤ max count 1 := hI.length_le
  omega

end PageStore

end Kobzar
