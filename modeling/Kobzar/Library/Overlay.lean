import Mathlib

/-!
# Copies over a base

A system holds copies of values that lie in a base, changes the copies only, and may let go of a copy at any time.
Then what it holds is what lies below, with the changes made since it was last copied, in order
(`Overlays.held_since`).
-/

namespace Overlay

variable {σ ο κ π : Type*}

/-- The system gets from one state to another by operations one after another. -/
inductive Trace (step : σ → ο → σ → Prop) (s : σ) : List ο → σ → Prop
  | nil : Trace step s [] s
  | snoc {ops : List ο} {op : ο} {t u : σ} (before : Trace step s ops t) (last : step t op u) :
      Trace step s (ops ++ [op]) u

/-- What every step preserves holds at the end of a trace. -/
theorem Trace.inv {step : σ → ο → σ → Prop} {I : σ → Prop} (hstep : ∀ s op t, I s → step s op t → I t)
    {s t : σ} {ops : List ο} (h : Trace step s ops t) (hs : I s) : I t := by
  induction h with
  | nil => exact hs
  | snoc _ last ih => exact hstep _ _ _ ih last

/-- The system holds copies over a base, of whose values no step takes any away. A copy held after a step was held
before it and got the change of the operation, or was not, and was made of what lies in the base then. -/
structure Overlays (step : σ → ο → σ → Prop) (I : σ → Prop) (base held : σ → κ → Option π)
    (change : κ → ο → π → π) : Prop where
  keeps : ∀ s op t, I s → step s op t → I t
  base_stays : ∀ s op t k v, I s → step s op t → base s k = some v → base t k = some v
  held_step : ∀ s op t k v, I s → step s op t → held t k = some v →
    ∃ w, v = change k op w ∧ (held s k = some w ∨ (held s k = none ∧ base t k = some w))

/-- A copy that is held was made at some step since the start, where it was not held before; it has been held ever
since; and it is what lies in the base with the changes of the operations since, in order. -/
theorem Overlays.held_since {step : σ → ο → σ → Prop} {I : σ → Prop} {base held : σ → κ → Option π}
    {change : κ → ο → π → π} (ho : Overlays step I base held change) {s₀ s : σ} {ops : List ο} {k : κ}
    {v : π} (hI : I s₀) (hnone : held s₀ k = none) (h : Trace step s₀ ops s) (hv : held s k = some v) :
    ∃ before after mid w, ops = before ++ after ∧ Trace step s₀ before mid ∧ held mid k = none ∧
      Trace (fun s op t => step s op t ∧ (held t k).isSome) mid after s ∧ base s k = some w ∧
        v = after.foldl (fun v op => change k op v) w := by
  induction h generalizing v with
  | nil =>
    rw [hnone] at hv
    cases hv
  | @snoc ops op t u before last ih =>
    have ht : I t := before.inv ho.keeps hI
    have hsome : (held u k).isSome := by rw [hv, Option.isSome_some]
    obtain ⟨w, rfl, hheld | ⟨hnot, hbase⟩⟩ := ho.held_step t op u k v ht last hv
    · -- the copy was held before the last step
      obtain ⟨front, back, mid, w₀, rfl, hfront, hmid, hback, hw₀, rfl⟩ := ih hheld
      refine ⟨front, back ++ [op], mid, w₀, List.append_assoc _ _ _, hfront, hmid, hback.snoc ⟨last, hsome⟩,
        ho.base_stays t op u k w₀ ht last hw₀, ?_⟩
      rw [List.foldl_append, List.foldl_cons, List.foldl_nil]
    · exact ⟨ops, [op], t, w, rfl, before, hnot, Trace.snoc .nil ⟨last, hsome⟩, hbase, rfl⟩

end Overlay
