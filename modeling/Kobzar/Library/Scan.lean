import Mathlib

/-!
# Forward scans

A scan starts at place 0 and goes from each place to the next one that it computes there, always forward. Two
places it visits are visited one after the other, so that it visits none between a place and the next.
-/

namespace Scan

/-- The places that a scan visits. -/
inductive Visits (next : Nat → Option Nat) : Nat → Prop where
  | start : Visits next 0
  | step {o o' : Nat} : Visits next o → next o = some o' → Visits next o'

/-- The scan always goes forward. -/
def Forward (next : Nat → Option Nat) : Prop := ∀ o o', next o = some o' → o < o'

variable {next next' : Nat → Option Nat} {o o' p : Nat}

/-- Scans that agree up to a place visit the same places up to there. -/
theorem Visits.congr (hf : Forward next) (hagree : ∀ o o', next o = some o' → o' ≤ p → next' o = some o')
    (h : Visits next o) (hle : o ≤ p) : Visits next' o := by
  induction h with
  | start => exact .start
  | step _ hnext ih => exact (ih (Nat.le_trans (Nat.le_of_lt (hf _ _ hnext)) hle)).step (hagree _ _ hnext hle)

/-- A scan that gets beyond a place it visits goes on from there. -/
theorem Visits.next_le (hf : Forward next) (ho : Visits next o) (hp : Visits next p) (hlt : o < p) :
    ∃ o', next o = some o' ∧ o' ≤ p := by
  obtain ⟨n, hn⟩ : ∃ n, o + p ≤ n := ⟨_, Nat.le_refl _⟩
  -- of the two ways to the places, the one to the farther place is followed back
  induction n generalizing o p with
  | zero => omega
  | succ n ih =>
    cases hp with
    | start => omega
    | step hq hnext =>
      rename_i q
      have hqp := hf _ _ hnext
      rcases Nat.lt_trichotomy o q with hoq | rfl | hqo
      · obtain ⟨o', ho', hle⟩ := ih ho hq hoq (by omega)
        exact ⟨o', ho', by omega⟩
      · exact ⟨p, hnext, Nat.le_refl p⟩
      · obtain ⟨q', hq', hle⟩ := ih hq ho hqo (by omega)
        rw [hnext] at hq'
        cases hq'
        omega

/-- No place is visited between one that is visited and the next. -/
theorem Visits.not_between (hf : Forward next) (ho : Visits next o) (hnext : next o = some o') (hlt : o < p)
    (hlt' : p < o') : ¬ Visits next p := by
  intro hp
  obtain ⟨q, hq, hle⟩ := ho.next_le hf hp hlt
  rw [hnext] at hq
  cases hq
  omega

/-- Where a scan stops, it visits nothing farther on. -/
theorem Visits.not_behind (hf : Forward next) (ho : Visits next o) (hnext : next o = none) (hlt : o < p) :
    ¬ Visits next p := by
  intro hp
  obtain ⟨q, hq, -⟩ := ho.next_le hf hp hlt
  rw [hnext] at hq
  cases hq

end Scan
