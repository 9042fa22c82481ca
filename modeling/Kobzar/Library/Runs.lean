import Mathlib

/-!
# Runs of a system

A system takes labelled steps, each admitted by a guard on the state before it. What every admitted step preserves is
preserved by every run.
-/

namespace Runs

variable {σ ο : Type*}

/-- One step of the system, by some operation that the guard admits in the state before it. -/
def Step (guard : σ → ο → Prop) (step : σ → ο → σ → Prop) (s t : σ) : Prop :=
  ∃ op, guard s op ∧ step s op t

/-- The system gets from one state to the other by steps that the guard admits. -/
def Reaches (guard : σ → ο → Prop) (step : σ → ο → σ → Prop) : σ → σ → Prop :=
  Relation.ReflTransGen (Step guard step)

variable {guard : σ → ο → Prop} {step : σ → ο → σ → Prop} {s t u : σ}

/-- A run of no step. -/
theorem Reaches.refl (s : σ) : Reaches guard step s s := Relation.ReflTransGen.refl

/-- A run and one more step. -/
theorem Reaches.snoc (h : Reaches guard step s t) (op : ο) (hg : guard t op) (hs : step t op u) :
    Reaches guard step s u :=
  h.tail ⟨op, hg, hs⟩

/-- What every admitted step preserves, every run preserves. -/
theorem Reaches.inv (I : σ → Prop) (hstep : ∀ s op t, I s → guard s op → step s op t → I t)
    (h : Reaches guard step s t) (hs : I s) : I t := by
  induction h with
  | refl => exact hs
  | tail _ hlast ih =>
    obtain ⟨op, hg, ht⟩ := hlast
    exact hstep _ op _ ih hg ht

end Runs
