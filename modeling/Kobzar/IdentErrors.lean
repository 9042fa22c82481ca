import Kobzar.Ident

/-!
# What is reported of a name

A name that its ends do not refuse is refused for its invalid characters: those that are invalid where they stand.
They are reported each once, in the order in which they are met first (`identPath_reports`).
-/

namespace Kobzar

section Classes

variable (isAlphanumeric : Char → Bool)

/-- A character that is invalid behind others: one of a segment when the colons before it are neither none nor two,
and any other that is no colon. -/
def invalidBehind (before : List Char) (c : Char) : Bool :=
  if identChar isAlphanumeric c then before.count ':' ≠ 0 && before.count ':' ≠ 2 else c ≠ ':'

/-- The characters of a name that are invalid where they stand. -/
def invalidIn (chars : List Char) : List Char :=
  (List.range chars.length).filterMap fun i => chars[i]?.filter (invalidBehind isAlphanumeric (chars.take i))

end Classes

variable {isAlphanumeric : Char → Bool}

/-- The invalid characters of a name with one more character. -/
theorem invalidIn_concat (chars : List Char) (c : Char) : invalidIn isAlphanumeric (chars ++ [c]) =
    invalidIn isAlphanumeric chars ++ if invalidBehind isAlphanumeric chars c then [c] else [] := by
  have hfront : ∀ i ∈ List.range chars.length,
      (chars ++ [c])[i]?.filter (invalidBehind isAlphanumeric ((chars ++ [c]).take i)) =
        chars[i]?.filter (invalidBehind isAlphanumeric (chars.take i)) := by
    intro i hi
    have hlt := List.mem_range.mp hi
    rw [List.getElem?_append_left hlt, List.take_append_of_le_length (Nat.le_of_lt hlt)]
  rw [invalidIn, List.length_append, List.length_singleton, List.range_succ, List.filterMap_append,
    List.filterMap_congr hfront]
  congr 1
  rw [List.filterMap_cons, List.getElem?_concat_length, List.take_left, Option.filter_some]
  by_cases hinvalid : invalidBehind isAlphanumeric chars c = true <;> simp [hinvalid]

/-- A character is found when it is not there yet. -/
theorem IdentScan.pushInvalid_eraseDups (found : List Char) (colon : Nat) (c : Char) :
    pushInvalid { invalidChars := found.eraseDups, colon } c = { invalidChars := (found ++ [c]).eraseDups, colon } := by
  unfold pushInvalid
  rw [List.eraseDups_append]
  by_cases hmem : c ∈ found
  · rw [if_pos (List.mem_eraseDups.mpr hmem)]
    simp [List.removeAll, hmem]
  · rw [if_neg (mt List.mem_eraseDups.mp hmem)]
    simp [List.removeAll, hmem, List.eraseDups_cons]

/-- A pass of the scan behind some characters: a colon is counted, and a character is found when it is invalid
behind them. -/
theorem scanChar_behind (hcolon : isAlphanumeric ':' = false) (chars : List Char) (c : Char)
    (hroom : (chars ++ [c]).count ':' < 2 ^ 31) :
    scanChar isAlphanumeric { invalidChars := (invalidIn isAlphanumeric chars).eraseDups, colon := chars.count ':' } c =
      .ok { invalidChars := (invalidIn isAlphanumeric (chars ++ [c])).eraseDups, colon := (chars ++ [c]).count ':' } := by
  rw [invalidIn_concat, List.count_append]
  rw [List.count_append] at hroom
  by_cases hc : c = ':'
  · subst hc
    have hident : ¬identChar isAlphanumeric ':' = true := by simp [identChar, hcolon]
    rw [List.count_singleton_self] at hroom ⊢
    rw [scanChar, if_neg hident, if_pos rfl, IdentScan.countColon, if_pos hroom]
    simp [invalidBehind, hident]
  · have hcount : [c].count ':' = 0 := List.count_eq_zero.mpr (by simpa using Ne.symm hc)
    rw [hcount, Nat.add_zero, scanChar]
    by_cases hident : identChar isAlphanumeric c = true
    · by_cases hk : chars.count ':' ≠ 2 ∧ chars.count ':' ≠ 0
      · have hinvalid : invalidBehind isAlphanumeric chars c = true := by simp [invalidBehind, hident, hk]
        rw [if_pos hident, if_pos hk, if_pos hinvalid, IdentScan.pushInvalid_eraseDups]
      · have hvalid : ¬invalidBehind isAlphanumeric chars c = true := by
          simp only [invalidBehind, hident, if_true, Bool.and_eq_true, decide_eq_true_eq]
          exact fun h => hk ⟨h.2, h.1⟩
        rw [if_pos hident, if_neg hk, if_neg hvalid, List.append_nil]
    · have hinvalid : invalidBehind isAlphanumeric chars c = true := by simp [invalidBehind, hident, hc]
      rw [if_neg hident, if_neg hc, if_pos hinvalid, IdentScan.pushInvalid_eraseDups]

/-- The scan of a name, when its colons can be counted, finds the characters that are invalid where they stand. -/
theorem scan_finds (hcolon : isAlphanumeric ':' = false) (chars : List Char) (hroom : chars.count ':' < 2 ^ 31) :
    chars.foldlM (scanChar isAlphanumeric) { invalidChars := [], colon := 0 } =
      .ok { invalidChars := (invalidIn isAlphanumeric chars).eraseDups, colon := chars.count ':' } := by
  induction chars using List.reverseRecOn with
  | nil => rfl
  | append_singleton chars c ih =>
    have hbefore : chars.count ':' < 2 ^ 31 := by
      rw [List.count_append] at hroom
      omega
    rw [List.foldlM_append, ih hbefore, ok_bind, List.foldlM_cons, scanChar_behind hcolon chars c hroom]
    rfl

/-- No invalid characters are reported of a name that is refused for its ends. -/
theorem new_ne_invalidChars {isNumeric : Char → Bool} {ident name : String} {chars : List Char}
    (h : RefusedAtEnds isNumeric ident) :
    IdentPath.new isAlphanumeric isNumeric ident ≠ .ok (.error (.invalidChars name chars)) := by
  unfold IdentPath.new
  unfold RefusedAtEnds at h
  rcases hchars : ident.toList with _ | ⟨first, rest⟩
  · simp
  · rw [hchars] at h
    simp only
    split
    · simp
    · rename_i hnumeric
      split
      · simp
      · rename_i hcolon
        rcases h with h | ⟨c, hc, hbad⟩ | hlast
        · exact absurd h (List.cons_ne_nil _ _)
        · cases hc
          exact absurd hbad (not_or.mpr ⟨hnumeric, hcolon⟩)
        · rw [List.getLast?_eq_some_getLast (List.cons_ne_nil first rest), Option.some.injEq] at hlast
          rw [if_pos hlast]
          simp

/-- When invalid characters are reported, and of what: the name is not refused for its ends and its colons can be
counted, and the report has the name and the characters that are invalid where they stand, each once, in the order
in which they are met first; there are some. -/
theorem identPath_reports (isAlphanumeric isNumeric : Char → Bool) (hcolon : isAlphanumeric ':' = false)
    (ident name : String) (chars : List Char) :
    IdentPath.new isAlphanumeric isNumeric ident = .ok (.error (.invalidChars name chars)) ↔
      ¬RefusedAtEnds isNumeric ident ∧ ident.toList.count ':' < 2 ^ 31 ∧ name = ident ∧
        chars = (invalidIn isAlphanumeric ident.toList).eraseDups ∧ chars ≠ [] := by
  by_cases href : RefusedAtEnds isNumeric ident
  · exact iff_of_false (new_ne_invalidChars href) fun h => h.1 href
  · rcases Nat.lt_or_ge (ident.toList.count ':') (2 ^ 31) with hfew | hmany
    · rw [new_of_not_refused href, scan_finds hcolon _ hfew, ok_bind]
      by_cases hnone : (invalidIn isAlphanumeric ident.toList).eraseDups = []
      · rw [if_neg (not_not.mpr hnone)]
        refine iff_of_false (by simp) fun h => h.2.2.2.2 (h.2.2.2.1.trans hnone)
      · rw [if_pos hnone]
        constructor
        · intro h
          cases h
          exact ⟨href, hfew, rfl, rfl, hnone⟩
        · rintro ⟨-, -, rfl, rfl, -⟩
          rfl
    · rw [(new_spec hcolon href).1 hmany]
      exact iff_of_false (by simp) fun h => absurd h.2.1 (Nat.not_lt.mpr hmany)

/-- A name with a character of no segment, and with characters behind one colon. -/
theorem identPath_reports_each_once :
    ¬RefusedAtEnds Char.isDigit "a-b:c-b" ∧ "a-b:c-b".toList.count ':' < 2 ^ 31 ∧ "a-b:c-b" = "a-b:c-b" ∧
      ['-', 'c', 'b'] = (invalidIn Char.isAlphanum "a-b:c-b".toList).eraseDups ∧ ['-', 'c', 'b'] ≠ [] :=
  (identPath_reports Char.isAlphanum Char.isDigit (by decide) "a-b:c-b" "a-b:c-b" ['-', 'c', 'b']).mp rfl

end Kobzar
