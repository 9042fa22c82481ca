import Mathlib

/-!
# Combinations that keep an extreme

Values are combined two by two, and each combination keeps the smaller key of its two (`KeepsLeast`). Then what is
combined of some values has the least key of them all (`HasLeast`), however they were combined: this holds of a
value itself, and carries over to combinations (`HasLeast.combine`) and folds (`HasLeast.foldl`). For the greatest
key the order is reversed.
-/

namespace Extremes

variable {σ α : Type*} [LinearOrder α] {op : σ → σ → σ} {key : σ → α} {a b y : σ} {xs ys zs : List σ}

/-- The combination keeps the smaller key of the two. -/
def KeepsLeast (op : σ → σ → σ) (key : σ → α) : Prop := ∀ a b, key (op a b) = min (key a) (key b)

/-- A value has the least key of some values: one of them has the same, and none a smaller one. -/
structure HasLeast (key : σ → α) (a : σ) (ys : List σ) : Prop where
  exists_eq : ∃ y ∈ ys, key y = key a
  le : ∀ y ∈ ys, key a ≤ key y

theorem HasLeast.singleton (key : σ → α) (a : σ) : HasLeast key a [a] where
  exists_eq := ⟨a, List.mem_singleton_self a, rfl⟩
  le y hy := by rw [List.mem_singleton.mp hy]

/-- Two values combined have the least key of all that each was combined of. -/
theorem HasLeast.combine (h : KeepsLeast op key) (ha : HasLeast key a ys) (hb : HasLeast key b zs) :
    HasLeast key (op a b) (ys ++ zs) where
  exists_eq := by
    obtain ⟨y, hy, hya⟩ := ha.exists_eq
    obtain ⟨z, hz, hzb⟩ := hb.exists_eq
    rcases min_choice (key a) (key b) with hmin | hmin
    · exact ⟨y, List.mem_append_left _ hy, by rw [h, hmin, hya]⟩
    · exact ⟨z, List.mem_append_right _ hz, by rw [h, hmin, hzb]⟩
  le y hy := by
    rw [h]
    rcases List.mem_append.mp hy with hy | hy
    · exact le_trans (min_le_left _ _) (ha.le y hy)
    · exact le_trans (min_le_right _ _) (hb.le y hy)

/-- Values folded into one have the least key of all. -/
theorem HasLeast.foldl (h : KeepsLeast op key) (ha : HasLeast key a ys) (xs : List σ) :
    HasLeast key (xs.foldl op a) (ys ++ xs) := by
  induction xs generalizing a ys with
  | nil => rwa [List.append_nil]
  | cons x xs ih =>
    have hstep := ih (ha.combine h (HasLeast.singleton key x))
    rwa [List.append_assoc] at hstep

/-- The least key is that of a value exactly when no key is smaller. -/
theorem HasLeast.eq_iff (ha : HasLeast key a ys) (hy : y ∈ ys) : key a = key y ↔ ∀ z ∈ ys, key y ≤ key z := by
  constructor
  · intro heq z hz
    exact heq ▸ ha.le z hz
  · intro hle
    obtain ⟨z, hz, heq⟩ := ha.exists_eq
    exact le_antisymm (ha.le y hy) (heq ▸ hle z hz)

end Extremes
