import Mathlib

/-!
# Intervals one behind another

Each of a list of intervals is open below and closed above, and starts where the one before it ends. What lies
above the start of the first of them and not above the end of the last lies in exactly one
(`Consecutive.filter_eq`).
-/

namespace Intervals

variable {α ι : Type*} [LinearOrder α]

/-- An interval and those behind it: each ends where the next one starts, no lower than it starts itself, and the
last one ends at the top. -/
inductive Consecutive (first last : ι → α) (top : α) : ι → List ι → Prop
  | one {i : ι} (ends : last i = top) : Consecutive first last top i []
  | cons {i j : ι} {rest : List ι} (meets : last i = first j) (ordered : first i ≤ first j)
      (behind : Consecutive first last top j rest) : Consecutive first last top i (j :: rest)

/-- A value lies in an interval. -/
def Holds (first last : ι → α) (x : α) (i : ι) : Prop := first i < x ∧ x ≤ last i

instance (first last : ι → α) (x : α) : DecidablePred (Holds first last x) :=
  fun i => inferInstanceAs (Decidable (first i < x ∧ x ≤ last i))

variable {first last : ι → α} {top x : α} {i : ι} {rest : List ι}

/-- A value that is not above the start of the first interval lies in none. -/
theorem Consecutive.filter_eq_nil (h : Consecutive first last top i rest) (hx : x ≤ first i) :
    (i :: rest).filter (Holds first last x ·) = [] := by
  induction h with
  | one ends => simp [Holds, not_lt.mpr hx]
  | @cons i j rest meets ordered behind ih =>
    have hout : ¬Holds first last x i := fun hin => absurd hin.1 (not_lt.mpr hx)
    rw [List.filter_cons_of_neg (by simpa using hout)]
    exact ih (hx.trans ordered)

/-- A value above the start of the first interval and not above the top lies in exactly one. -/
theorem Consecutive.filter_eq (h : Consecutive first last top i rest) (hx : first i < x) (htop : x ≤ top) :
    ∃ k, (i :: rest).filter (Holds first last x ·) = [k] := by
  induction h with
  | @one i ends =>
    have hin : Holds first last x i := ⟨hx, ends ▸ htop⟩
    exact ⟨i, by simp [hin]⟩
  | @cons i j rest meets ordered behind ih =>
    rcases le_or_gt x (last i) with hle | hgt
    · -- the interval has it, and those behind start no lower than it ends
      have hin : Holds first last x i := ⟨hx, hle⟩
      refine ⟨i, ?_⟩
      rw [List.filter_cons_of_pos (by simpa using hin), behind.filter_eq_nil (meets ▸ hle)]
    · have hout : ¬Holds first last x i := fun hin => absurd hin.2 (not_le.mpr hgt)
      rw [List.filter_cons_of_neg (by simpa using hout)]
      exact ih (meets ▸ hgt)

end Intervals
