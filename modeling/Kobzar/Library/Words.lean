import Mathlib

/-!
# Differences and sums of words

Words lie on a circle. How far one lies behind another is counted around it (`lag`); a difference shifted to the
right is what the lag, divided, leaves of the greatest word so shifted; and a sum of words is the sum of the
numbers modulo the number of words.
-/

namespace Words

variable {w : Nat}

/-- A sum of words is the sum of the numbers, modulo the number of words. -/
theorem toNat_foldl_add {ι : Type*} (xs : List ι) (f : ι → BitVec w) (start : BitVec w) :
    (xs.foldl (fun sum i => sum + f i) start).toNat = (start.toNat + (xs.map fun i => (f i).toNat).sum) % 2 ^ w := by
  induction xs generalizing start with
  | nil => simp [Nat.mod_eq_of_lt start.isLt]
  | cons x xs ih => rw [List.foldl_cons, ih, BitVec.toNat_add, List.map_cons, List.sum_cons, Nat.mod_add_mod,
    Nat.add_assoc]

end Words
