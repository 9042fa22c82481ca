import Mathlib

/-!
# The best so far

A loop that goes through a list and keeps the best of the values that match, with its key, ends with the first of
those that have the greatest key (`foldl_keepBest`). When no two values that match have the same key, the order of
the list does not matter (`argmax_eq_of_perm`).
-/

namespace Best

variable {α β : Type*} [LinearOrder β]

/-- One pass: a value that matches is the best so far when there is none yet, or when its key is greater. -/
def keepBest (p : α → Bool) (key : α → β) (best : Option (α × β)) (x : α) : Option (α × β) :=
  if p x then
    match best with
    | some (_, bestKey) => if bestKey < key x then some (x, key x) else best
    | none => some (x, key x)
  else best

/-- The loop ends with the first of the values that match and have the greatest key. -/
theorem foldl_keepBest (p : α → Bool) (key : α → β) (xs : List α) :
    xs.foldl (keepBest p key) none = ((xs.filter p).argmax key).map fun x => (x, key x) := by
  -- the last value comes last, so the induction takes it off the end
  induction xs using List.reverseRecOn with
  | nil => rfl
  | append_singleton xs x ih =>
    rw [List.foldl_append, ih, List.foldl_cons, List.foldl_nil, List.filter_append]
    unfold keepBest
    by_cases hx : p x = true
    · rw [if_pos hx, List.filter_singleton, hx, cond_true, List.argmax_concat]
      cases (xs.filter p).argmax key with
      | none => rfl
      | some best =>
        by_cases hlt : key best < key x
        · simp [hlt]
        · simp [hlt]
    · rw [if_neg hx, List.filter_singleton, Bool.eq_false_of_not_eq_true hx, cond_false, List.append_nil]

/-- The greatest key finds the same value in every order of a list in which it has one value only. -/
theorem argmax_eq_of_perm {key : α → β} {xs ys : List α} (h : xs.Perm ys) (hinj : Set.InjOn key {x | x ∈ xs}) :
    xs.argmax key = ys.argmax key := by
  cases hxs : xs.argmax key with
  | none =>
    obtain rfl := List.argmax_eq_none.mp hxs
    rw [h.symm.eq_nil, List.argmax_nil]
  | some m =>
    have hm : m ∈ xs := List.argmax_mem hxs
    cases hys : ys.argmax key with
    | none =>
      obtain rfl := List.argmax_eq_none.mp hys
      exact absurd (h.mem_iff.mp hm) List.not_mem_nil
    | some m' =>
      have hm' : m' ∈ xs := h.mem_iff.mpr (List.argmax_mem hys)
      have hkey : key m = key m' :=
        le_antisymm (List.le_of_mem_argmax (h.mem_iff.mp hm) hys) (List.le_of_mem_argmax hm' hxs)
      rw [hinj hm hm' hkey]

end Best
