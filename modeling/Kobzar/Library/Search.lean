import Mathlib

/-!
# Binary search

What the documentation of `slice::binary_search_by` promises, as a structure (`BinarySearch`): on a slice that the
comparison cuts into a lower, a matching and an upper part, it returns the place of some match, or else the place
where a match could be inserted. A proof over every `BinarySearch` does not depend on which of several matches is
found. That the promise can be kept is shown by the halving search itself (`BinarySearch.halving`).
-/

namespace Search

variable {α : Type}

/-- The comparison cuts the list into a part below the target, a part that matches it and a part above it, in this
order. -/
def Cut (f : α → Ordering) (xs : List α) : Prop :=
  xs.Pairwise fun a b => (f b = .lt → f a = .lt) ∧ (f a = .gt → f b = .gt)

/-- What a search may return on a list that the comparison cuts. -/
def Answers (f : α → Ordering) (xs : List α) : Except Nat Nat → Prop
  | .ok i => ∃ h : i < xs.length, f xs[i] = .eq
  | .error i => i ≤ xs.length ∧ ∀ j (h : j < xs.length), if j < i then f xs[j] = .lt else f xs[j] = .gt

/-- A binary search: a function that answers rightly on every list that the comparison cuts. -/
structure BinarySearch where
  run : {α : Type} → (α → Ordering) → List α → Except Nat Nat
  run_answers : ∀ {α : Type} {f : α → Ordering} {xs : List α}, Cut f xs → Answers f xs (run f xs)

/-! ## The order along a list that is cut -/

/-- What matches or lies below the target has nothing above the target before it, and what matches or lies above it has
nothing below the target behind it. -/
theorem Cut.getElem {f : α → Ordering} {xs : List α} (hc : Cut f xs) {i j : Nat} (hij : i < j) (hj : j < xs.length) :
    (f xs[j] = .lt → f xs[i] = .lt) ∧ (f xs[i] = .gt → f xs[j] = .gt) :=
  List.pairwise_iff_getElem.mp hc i j (by omega) hj hij

/-- A list sorted by a key is cut by the comparison of that key with a value. -/
theorem Cut.of_sorted {κ : Type} [LinearOrder κ] (key : α → κ) {xs : List α} (v : κ)
    (hs : xs.Pairwise fun a b => key a ≤ key b) : Cut (fun a => compare (key a) v) xs := by
  refine hs.imp ?_
  intro a b hab
  constructor
  · intro hb
    exact compare_lt_iff_lt.mpr (lt_of_le_of_lt hab (compare_lt_iff_lt.mp hb))
  · intro ha
    exact compare_gt_iff_gt.mpr (lt_of_lt_of_le (compare_gt_iff_gt.mp ha) hab)

/-- In a list along which a property once lost stays lost, the places that have it are the first ones. -/
theorem sat_iff_lt_countP {p : α → Bool} {xs : List α} (hs : xs.Pairwise fun a b => p b = true → p a = true)
    {j : Nat} (hj : j < xs.length) : p xs[j] = true ↔ j < xs.countP p := by
  induction xs generalizing j with
  | nil => exact absurd hj (Nat.not_lt_zero j)
  | cons x xs ih =>
    obtain ⟨hx, hxs⟩ := List.pairwise_cons.mp hs
    by_cases hpx : p x = true
    · rw [List.countP_cons_of_pos hpx]
      cases j with
      | zero => simp [hpx]
      | succ j =>
        rw [List.getElem_cons_succ, ih hxs (by simpa using hj)]
        omega
    · have hnone : (x :: xs).countP p = 0 := by
        rw [List.countP_eq_zero]
        intro y hy hpy
        rcases List.mem_cons.mp hy with rfl | hy
        · exact hpx hpy
        · exact hpx (hx y hy hpy)
      have hfalse : p (x :: xs)[j] ≠ true := List.countP_eq_zero.mp hnone _ (List.getElem_mem hj)
      rw [hnone]
      exact ⟨fun h => absurd h hfalse, fun h => absurd h (Nat.not_lt_zero j)⟩

/-- A search that finds nothing has nothing to find. -/
theorem Answers.not_eq {f : α → Ordering} {xs : List α} {i : Nat} (h : Answers f xs (.error i)) {x : α}
    (hx : x ∈ xs) : f x ≠ .eq := by
  obtain ⟨j, hj, rfl⟩ := List.getElem_of_mem hx
  have hside := h.2 j hj
  split at hside <;> simp [hside]

/-! ## The halving search -/

/-- The search in the `size` places from `base` on: the half that can still hold the target is kept until one place
is left. -/
def halve (f : α → Ordering) (xs : List α) : Nat → Nat → Nat → Nat
  | 0, base, _ => base
  | fuel + 1, base, size =>
    if size ≤ 1 then base
    else
      let half := size / 2
      let mid := base + half
      match xs[mid]? with
      | some x => halve f xs fuel (if f x = .gt then base else mid) (size - half)
      | none => base

/-- The search of the whole list. -/
def halving (f : α → Ordering) (xs : List α) : Except Nat Nat :=
  match xs[halve f xs xs.length 0 xs.length]? with
  | none => .error 0
  | some x =>
    let base := halve f xs xs.length 0 xs.length
    match f x with
    | .eq => .ok base
    | .lt => .error (base + 1)
    | .gt => .error base

/-- The target lies in the `size` places from `base` on: what comes before does not lie above it, and neither does
the first place, unless it is the first of the list; what comes after lies above it. -/
def Within (f : α → Ordering) (xs : List α) (base size : Nat) : Prop :=
  base + size ≤ xs.length ∧ (∀ h : base < xs.length, base ≠ 0 → f xs[base] ≠ .gt) ∧
    ∀ j (h : j < xs.length), base + size ≤ j → f xs[j] = .gt

/-- With enough fuel the search ends with one place, which the target's place does not precede. -/
theorem halve_within {f : α → Ordering} {xs : List α} (hc : Cut f xs) {fuel base size : Nat} (hf : size ≤ fuel)
    (hs : 1 ≤ size) (hw : Within f xs base size) : Within f xs (halve f xs fuel base size) 1 := by
  induction fuel generalizing base size with
  | zero => omega
  | succ fuel ih =>
    obtain ⟨hlen, hbase, habove⟩ := hw
    unfold halve
    split
    · obtain rfl : size = 1 := by omega
      exact ⟨hlen, hbase, habove⟩
    · have hmid : base + size / 2 < xs.length := by omega
      simp only [List.getElem?_eq_getElem hmid]
      refine ih (by omega) (by omega) ?_
      split
      · -- the middle lies above the target, and with it all behind it
        rename_i hgt
        refine ⟨by omega, hbase, ?_⟩
        intro j hj hle
        rcases Nat.lt_or_ge (base + size / 2) j with hlt | hge
        · exact (hc.getElem hlt hj).2 hgt
        · obtain rfl : j = base + size / 2 := by omega
          exact hgt
      · rename_i hgt
        refine ⟨by omega, fun _ _ => hgt, ?_⟩
        intro j hj hle
        exact habove j hj (by omega)

/-- The halving search answers rightly. -/
theorem halving_answers {f : α → Ordering} {xs : List α} (hc : Cut f xs) : Answers f xs (halving f xs) := by
  rcases Nat.eq_zero_or_pos xs.length with hz | hpos
  · obtain rfl := List.length_eq_zero_iff.mp hz
    exact ⟨Nat.le_refl _, fun j hj => absurd hj (Nat.not_lt_zero j)⟩
  · have hstart : Within f xs 0 xs.length :=
      ⟨by omega, fun _ h => absurd rfl h, fun j hj hle => by omega⟩
    obtain ⟨hlen, hbase, habove⟩ := halve_within hc (Nat.le_refl _) hpos hstart
    unfold halving
    obtain ⟨base, hb⟩ : ∃ base, base = halve f xs xs.length 0 xs.length := ⟨_, rfl⟩
    rw [← hb] at hlen hbase habove ⊢
    have hin : base < xs.length := by omega
    simp only [List.getElem?_eq_getElem hin]
    cases hfx : f xs[base] with
    | eq => exact ⟨hin, hfx⟩
    | lt =>
      refine ⟨by omega, ?_⟩
      intro j hj
      split
      · rcases Nat.lt_or_ge j base with hlt | hge
        · exact (hc.getElem hlt hin).1 hfx
        · obtain rfl : j = base := by omega
          exact hfx
      · exact habove j hj (by omega)
    | gt =>
      have hzero : base = 0 := by
        by_contra hne
        exact hbase hin hne hfx
      refine ⟨by omega, ?_⟩
      intro j hj
      rw [if_neg (by omega)]
      rcases Nat.eq_zero_or_pos j with rfl | hj0
      · simpa [hzero] using hfx
      · exact habove j hj (by omega)

/-- The halving search is a binary search. -/
def BinarySearch.halving : BinarySearch := { run := Search.halving, run_answers := halving_answers }

end Search
