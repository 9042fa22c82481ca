import Mathlib

/-!
# Codes without common prefixes

A set of words none of which starts another one. What such words make when they are put end to end tells the words
and their order (`PrefixFree.uniquelyDecodable`), and so does a front of it, as far as it goes
(`PrefixFree.starts_of_flatten`).
-/

namespace Codes

open InformationTheory

variable {α : Type*} {S : Set (List α)}

/-- No word is empty, and none starts another one. -/
structure PrefixFree (S : Set (List α)) : Prop where
  ne_nil : ∀ w ∈ S, w ≠ []
  eq_of_starts : ∀ v ∈ S, ∀ w ∈ S, v <+: w → v = w

/-- Two words that start the same text are the same. -/
theorem PrefixFree.eq_of_append (h : PrefixFree S) {v w rest rest' : List α} (hv : v ∈ S) (hw : w ∈ S)
    (heq : v ++ rest = w ++ rest') : v = w := by
  have hvt : v <+: w ++ rest' := heq ▸ List.prefix_append v rest
  rcases List.prefix_or_prefix_of_prefix hvt (List.prefix_append w rest') with hpre | hpre
  · exact h.eq_of_starts v hv w hw hpre
  · exact (h.eq_of_starts w hw v hv hpre).symm

/-- Words put end to end are told apart. -/
theorem PrefixFree.uniquelyDecodable (h : PrefixFree S) : UniquelyDecodable S := by
  intro L₁ L₂ h₁ h₂ hflat
  induction L₁ generalizing L₂ with
  | nil =>
    cases L₂ with
    | nil => rfl
    | cons w L₂ =>
      have hempty := (List.append_eq_nil_iff.mp hflat.symm).1
      exact absurd hempty (h.ne_nil w (h₂ w List.mem_cons_self))
  | cons v L₁ ih =>
    cases L₂ with
    | nil =>
      have hempty := (List.append_eq_nil_iff.mp hflat).1
      exact absurd hempty (h.ne_nil v (h₁ v List.mem_cons_self))
    | cons w L₂ =>
      rw [List.flatten_cons, List.flatten_cons] at hflat
      obtain rfl := h.eq_of_append (h₁ v List.mem_cons_self) (h₂ w List.mem_cons_self) hflat
      rw [ih L₂ (fun x hx => h₁ x (List.mem_cons_of_mem v hx)) (fun x hx => h₂ x (List.mem_cons_of_mem v hx))
        (List.append_cancel_left hflat)]

/-- Words put end to end start other ones put end to end only as the words they start with. -/
theorem PrefixFree.starts_of_flatten (h : PrefixFree S) {L₁ L₂ : List (List α)} (h₁ : ∀ w ∈ L₁, w ∈ S)
    (h₂ : ∀ w ∈ L₂, w ∈ S) (hflat : L₁.flatten <+: L₂.flatten) : L₁ <+: L₂ := by
  induction L₁ generalizing L₂ with
  | nil => exact List.nil_prefix
  | cons v L₁ ih =>
    obtain ⟨back, hback⟩ := hflat
    cases L₂ with
    | nil =>
      have hempty := (List.append_eq_nil_iff.mp (List.append_eq_nil_iff.mp hback).1).1
      exact absurd hempty (h.ne_nil v (h₁ v List.mem_cons_self))
    | cons w L₂ =>
      rw [List.flatten_cons, List.flatten_cons, List.append_assoc] at hback
      obtain rfl := h.eq_of_append (h₁ v List.mem_cons_self) (h₂ w List.mem_cons_self) hback
      refine List.cons_prefix_cons.mpr ⟨rfl, ih ?_ ?_ ⟨back, List.append_cancel_left hback⟩⟩
      · exact fun x hx => h₁ x (List.mem_cons_of_mem v hx)
      · exact fun x hx => h₂ x (List.mem_cons_of_mem v hx)

end Codes
