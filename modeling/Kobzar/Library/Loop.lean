import Mathlib

/-!
# Bounded loops that can stop early

The loop `for i in 0..n` over a state, stopped by the first error of its body, and its two rules: an invariant
indexed by the number of passes is kept to the end of the loop, and an error in one pass is the error of the loop.
For loops over a list the invariant is indexed by the elements visited so far.
-/

namespace Loop

variable {ε σ : Type}

/-- The loop `for i in 0..n` over a state, stopped by the first error of its body. -/
def forRange (n : Nat) (init : σ) (body : Nat → σ → Except ε σ) : Except ε σ :=
  (List.range n).foldlM (fun s i => body i s) init

/-- The last pass of a loop. -/
theorem forRange_succ (n : Nat) (init : σ) (body : Nat → σ → Except ε σ) :
    forRange (n + 1) init body = forRange n init body >>= body n := by
  simp [forRange, List.range_succ, List.foldlM_append]

/-- An invariant that holds before the loop and is kept by every pass holds after it, and the loop ends without an
error. -/
theorem forRange_ok (n : Nat) (init : σ) (body : Nat → σ → Except ε σ) (I : Nat → σ → Prop) (h0 : I 0 init)
    (hstep : ∀ i < n, ∀ s, I i s → ∃ s', body i s = .ok s' ∧ I (i + 1) s') :
    ∃ s', forRange n init body = .ok s' ∧ I n s' := by
  induction n with
  | zero => exact ⟨init, rfl, h0⟩
  | succ n ih =>
    obtain ⟨s, hs, hI⟩ := ih (fun i hi => hstep i (by omega))
    obtain ⟨s', hs', hI'⟩ := hstep n (by omega) s hI
    refine ⟨s', ?_, hI'⟩
    rw [forRange_succ, hs]
    exact hs'

/-- When the passes before `j` end in `s` and pass `j` fails there, the loop fails with the same error. -/
theorem forRange_error {n j : Nat} {init s : σ} {e : ε} {body : Nat → σ → Except ε σ} (hj : j < n)
    (hs : forRange j init body = .ok s) (he : body j s = .error e) : forRange n init body = .error e := by
  induction n with
  | zero => omega
  | succ n ih =>
    rw [forRange_succ]
    rcases Nat.lt_or_ge j n with hlt | hge
    · rw [ih hlt]
      rfl
    · have hjn : j = n := by omega
      subst hjn
      rw [hs]
      exact he

/-! ## Loops over a list -/

variable {α : Type}

/-- An invariant indexed by the elements already visited, which every pass that ends keeps, holds after a loop over
the whole list that ends. -/
theorem foldlM_inv {xs : List α} {f : σ → α → Except ε σ} {s t : σ} (I : List α → σ → Prop) (h0 : I [] s)
    (hstep : ∀ done x rest s s', xs = done ++ x :: rest → I done s → f s x = .ok s' → I (done ++ [x]) s')
    (h : xs.foldlM f s = .ok t) : I xs t := by
  induction xs using List.reverseRecOn generalizing t with
  | nil =>
    cases h
    exact h0
  | append_singleton xs x ih =>
    rw [List.foldlM_append] at h
    cases hs : xs.foldlM f s with
    | error e =>
      rw [hs] at h
      cases h
    | ok s' =>
      rw [hs] at h
      have hx : f s' x = .ok t := by
        have h' : (f s' x >>= fun u => pure u) = .ok t := h
        rwa [bind_pure] at h'
      refine hstep xs x [] s' t rfl (ih ?_ hs) hx
      intro done y rest s s' hxs
      exact hstep done y (rest ++ [x]) s s' (by simp [hxs])

/-- An invariant indexed by the elements already visited, from which every pass ends and which it keeps, holds
after the loop, and the loop ends. -/
theorem foldlM_ok {xs : List α} {f : σ → α → Except ε σ} {s : σ} (I : List α → σ → Prop) (h0 : I [] s)
    (hstep : ∀ done x rest s, xs = done ++ x :: rest → I done s → ∃ s', f s x = .ok s' ∧ I (done ++ [x]) s') :
    ∃ t, xs.foldlM f s = .ok t ∧ I xs t := by
  induction xs using List.reverseRecOn with
  | nil => exact ⟨s, rfl, h0⟩
  | append_singleton xs x ih =>
    obtain ⟨s', hs', hI⟩ := ih fun done y rest s hxs => hstep done y (rest ++ [x]) s (by simp [hxs])
    obtain ⟨t, ht, hI'⟩ := hstep xs x [] s' rfl hI
    refine ⟨t, ?_, hI'⟩
    rw [List.foldlM_append, hs']
    show (f s' x >>= fun u => pure u) = .ok t
    rw [bind_pure, ht]

end Loop
