import Mathlib

/-!
# Numbers written in digits

A number is written with no leading zero, so that different numbers are written differently (`toDigits_inj`), and a
nonempty text of decimal digits is the one a number is written with exactly when it starts with no zero, or is the
zero (`toDigits_ofDigitChars_iff`).
-/

namespace Numerals

variable {b n m : ℕ} {digits : List Char}

/-! ## Digits of any base -/

/-- Digits below 16 are different characters. -/
theorem digitChar_inj (hn : n < 16) (hm : m < 16) (h : n.digitChar = m.digitChar) : n = m := by
  have hall : ∀ n < 16, ∀ m < 16, Nat.digitChar n = Nat.digitChar m → n = m := by decide
  exact hall n hn m hm h

/-- Different numbers are written differently. -/
theorem toDigits_inj (hb : 1 < b) (hb' : b ≤ 16) (h : Nat.toDigits b n = Nat.toDigits b m) : n = m := by
  induction n using Nat.strongRecOn generalizing m with
  | _ n ih =>
    rw [Nat.toDigits_eq_if hb, Nat.toDigits_eq_if (n := m) hb] at h
    by_cases hn : n < b <;> by_cases hm : m < b
    · rw [if_pos hn, if_pos hm] at h
      exact digitChar_inj (by omega) (by omega) (List.singleton_inj.mp h)
    · -- one digit is no two
      rw [if_pos hn, if_neg hm] at h
      have hlen := congrArg List.length h
      have hpos : 0 < (Nat.toDigits b (m / b)).length := Nat.length_toDigits_pos
      simp only [List.length_singleton, List.length_append] at hlen
      omega
    · rw [if_neg hn, if_pos hm] at h
      have hlen := congrArg List.length h
      have hpos : 0 < (Nat.toDigits b (n / b)).length := Nat.length_toDigits_pos
      simp only [List.length_singleton, List.length_append] at hlen
      omega
    · rw [if_neg hn, if_neg hm] at h
      obtain ⟨hfront, hlast⟩ := List.append_inj' h rfl
      have hdiv := ih (n / b) (Nat.div_lt_self (by omega) hb) hfront
      have hmod := digitChar_inj (Nat.lt_of_lt_of_le (Nat.mod_lt n (by omega)) hb')
        (Nat.lt_of_lt_of_le (Nat.mod_lt m (by omega)) hb') (List.singleton_inj.mp hlast)
      rw [← Nat.div_add_mod n b, ← Nat.div_add_mod m b, hdiv, hmod]

/-- A number is written with digits of its base. -/
theorem exists_of_mem_toDigits (hb : 1 < b) {c : Char} (h : c ∈ Nat.toDigits b n) : ∃ d < b, c = Nat.digitChar d := by
  induction n using Nat.strongRecOn with
  | _ n ih =>
    rw [Nat.toDigits_eq_if hb] at h
    by_cases hn : n < b
    · rw [if_pos hn] at h
      exact ⟨n, hn, List.mem_singleton.mp h⟩
    · rw [if_neg hn, List.mem_append, List.mem_singleton] at h
      rcases h with hfront | hlast
      · exact ih (n / b) (Nat.div_lt_self (by omega) hb) hfront
      · exact ⟨n % b, Nat.mod_lt n (by omega), hlast⟩

/-- Only zero is written with a zero in front. -/
theorem head?_toDigits (hb : 1 < b) (h : (Nat.toDigits b n).head? = some '0') : n = 0 := by
  induction n using Nat.strongRecOn with
  | _ n ih =>
    rw [Nat.toDigits_eq_if hb] at h
    by_cases hn : n < b
    · rw [if_pos hn, List.head?_cons, Option.some.injEq] at h
      exact Nat.digitChar_eq_zero.mp h
    · rw [if_neg hn, List.head?_append_of_ne_nil _ Nat.toDigits_ne_nil] at h
      have hzero := ih (n / b) (Nat.div_lt_self (by omega) hb) h
      have hpos := Nat.div_pos (Nat.le_of_not_lt hn) (by omega)
      omega

/-! ## Decimal digits -/

/-- A digit is the character of its value. -/
theorem digitChar_sub {c : Char} (hc : c.isDigit) : Nat.digitChar (c.toNat - '0'.toNat) = c ∧
    c.toNat - '0'.toNat < 10 := by
  have hrange : 48 ≤ c.toNat ∧ c.toNat ≤ 57 := by
    simpa [Char.isDigit, UInt32.le_iff_toNat_le] using hc
  have hzero : '0'.toNat = 48 := rfl
  have hlt : c.toNat - '0'.toNat < 10 := by omega
  refine ⟨Char.toNat_inj.mp ?_, hlt⟩
  rw [Nat.toNat_digitChar_of_lt_ten hlt]
  omega

/-- More digits written behind a number that is not zero. -/
theorem toDigits_append (hn : 0 < n) (hdigits : ∀ c ∈ digits, c.isDigit) :
    Nat.toDigits 10 n ++ digits = Nat.toDigits 10 (Nat.ofDigitChars 10 digits n) := by
  induction digits generalizing n with
  | nil => simp
  | cons c digits ih =>
    obtain ⟨hchar, hlt⟩ := digitChar_sub (hdigits c List.mem_cons_self)
    have hone : Nat.toDigits 10 (c.toNat - '0'.toNat) = [c] := by rw [Nat.toDigits_of_lt_base hlt, hchar]
    have hstep := Nat.toDigits_append_toDigits (b := 10) (by decide) hn hlt
    rw [hone] at hstep
    rw [Nat.ofDigitChars_cons, ← ih (by omega) fun d hd => hdigits d (List.mem_cons_of_mem c hd), ← hstep,
      List.append_assoc]
    rfl

/-- Decimal digits are those that their number is written with exactly when they start with no zero, or are the zero. -/
theorem toDigits_ofDigitChars_iff (hdigits : ∀ c ∈ digits, c.isDigit) (hne : digits ≠ []) :
    Nat.toDigits 10 (Nat.ofDigitChars 10 digits 0) = digits ↔ (digits.head? = some '0' → digits = ['0']) := by
  constructor
  · intro h hhead
    have hzero := head?_toDigits (by decide) (h ▸ hhead)
    rw [hzero] at h
    exact h.symm
  · intro h
    cases digits with
    | nil => exact absurd rfl hne
    | cons c digits =>
      obtain ⟨hchar, hlt⟩ := digitChar_sub (hdigits c List.mem_cons_self)
      by_cases hc : c = '0'
      · subst hc
        cases h rfl
        rfl
      · have hpos : 0 < c.toNat - '0'.toNat := by
          refine Nat.pos_of_ne_zero fun hzero => hc ?_
          rw [← hchar, hzero]
          rfl
        rw [Nat.ofDigitChars_cons, Nat.mul_zero, Nat.zero_add,
          ← toDigits_append hpos fun d hd => hdigits d (List.mem_cons_of_mem c hd), Nat.toDigits_of_lt_base hlt, hchar]
        rfl

end Numerals
