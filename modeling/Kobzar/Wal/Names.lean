import Kobzar.Library.Numerals
import Kobzar.Wal.Discovery

/-!
# Names of segments and their numbers

The name of a segment is written from its LSN and read back by a parser that also takes a plus sign and leading
zeros. So the LSN read off a name leads back to that name exactly when the number in it is written plainly
(`segmentName_of_lsnOf_iff`).
-/

namespace Kobzar

open Numerals

/-- The text of a name in which the stream looks for a number: what is left of it without prefix and suffix. -/
def numberText (name : FileName) : Option (List Char) := do
  let nameStr ← name.toStr
  (stripPrefix mainPrefix nameStr).bind (stripSuffix walSuffix)

/-- The number of a name is written plainly: with no plus sign, and with no zero in front of other digits. -/
def FileName.PlainlyNumbered (name : FileName) : Prop :=
  ∀ text, numberText name = some text → text.head? ≠ some '+' ∧ (text.head? = some '0' → text = ['0'])

/-- A text with a prefix. -/
theorem stripPrefix_eq_some {front text rest : List Char} (h : stripPrefix front text = some rest) :
    text = front ++ rest := by
  unfold stripPrefix at h
  split at h
  · rename_i hprefix
    cases h
    exact (List.prefix_iff_eq_append.mp (List.isPrefixOf_iff_prefix.mp hprefix)).symm
  · cases h

/-- A text with a suffix. -/
theorem stripSuffix_eq_some {back text rest : List Char} (h : stripSuffix back text = some rest) :
    text = rest ++ back := by
  unfold stripSuffix at h
  split at h
  · rename_i hsuffix
    cases h
    exact (List.suffix_iff_eq_append.mp (List.isSuffixOf_iff_suffix.mp hsuffix)).symm
  · cases h

/-- A name in which the stream looks for a number is the text between prefix and suffix. -/
theorem numberText_eq_some_iff {name : FileName} {text : List Char} :
    numberText name = some text ↔ name = .text (mainPrefix ++ text ++ walSuffix) := by
  constructor
  · intro h
    obtain ⟨nameStr, hstr, hrest⟩ := Option.bind_eq_some_iff.mp h
    obtain ⟨rest, hprefix, hsuffix⟩ := Option.bind_eq_some_iff.mp hrest
    cases name with
    | raw bytes => cases hstr
    | text chars =>
      cases hstr
      rw [stripPrefix_eq_some hprefix, stripSuffix_eq_some hsuffix, List.append_assoc]
  · rintro rfl
    simp only [numberText, FileName.toStr, Option.bind_eq_bind, Option.bind_some, List.append_assoc, stripPrefix_append,
      stripSuffix_append]

/-- Digits that were all taken are those of a number that fits a word. -/
theorem foldlM_parseDigit_eq_some {digits : List Char} {value number : Nat} (hlt : value < 2 ^ 64)
    (h : digits.foldlM parseDigit value = some number) :
    (∀ c ∈ digits, c.isDigit) ∧ number = Nat.ofDigitChars 10 digits value ∧ number < 2 ^ 64 := by
  induction digits generalizing value with
  | nil =>
    cases h
    exact ⟨fun c hc => absurd hc List.not_mem_nil, rfl, hlt⟩
  | cons c digits ih =>
    rw [List.foldlM_cons] at h
    obtain ⟨next, hnext, hrest⟩ := Option.bind_eq_some_iff.mp h
    unfold parseDigit at hnext
    split at hnext
    · rename_i hc
      cases hnext
      obtain ⟨hdigits, hnumber, hfits⟩ := ih hc.2 hrest
      refine ⟨fun d hd => ?_, by rw [hnumber, Nat.ofDigitChars_cons], hfits⟩
      rcases List.mem_cons.mp hd with rfl | hd
      · exact hc.1
      · exact hdigits d hd
    · cases hnext

/-- A text that starts with no plus sign is read as it is. -/
theorem stripPlus_of_head?_ne {text : List Char} (h : text.head? ≠ some '+') : stripPlus text = text := by
  unfold stripPlus
  split
  · exact absurd rfl h
  · rfl

/-- A text that is read as a number is what the number is written with exactly when it is written plainly. -/
theorem toDigits_of_parseU64_iff {text : List Char} {lsn : U64} (h : parseU64 text = some lsn) :
    text = Nat.toDigits 10 lsn.toNat ↔ text.head? ≠ some '+' ∧ (text.head? = some '0' → text = ['0']) := by
  unfold parseU64 at h
  split at h
  · cases h
  · rename_i hne
    obtain ⟨number, hnumber, rfl⟩ := Option.map_eq_some_iff.mp h
    obtain ⟨hdigits, hvalue, hfits⟩ := foldlM_parseDigit_eq_some (by norm_num) hnumber
    rw [BitVec.toNat_ofNat, Nat.mod_eq_of_lt hfits, hvalue]
    have hplain := toDigits_ofDigitChars_iff hdigits hne
    by_cases hplus : text.head? = some '+'
    · -- a number is written with no plus sign
      refine iff_of_false (fun heq => ?_) fun h => h.1 hplus
      rw [heq] at hplus
      have hdigit : '+'.isDigit := Nat.isDigit_of_mem_toDigits (by decide) (by decide) (List.mem_of_mem_head? hplus)
      exact absurd hdigit (by decide)
    · rw [stripPlus_of_head?_ne hplus] at hplain ⊢
      rw [eq_comm, hplain]
      exact (and_iff_right hplus).symm

/-- A name whose number is read is that of a segment exactly when the number is written plainly. -/
theorem eq_segmentName_iff {name : FileName} {lsn : U64} (h : lsnOf name = some lsn) :
    name = segmentName lsn ↔ name.PlainlyNumbered := by
  obtain ⟨text, htext, hparse⟩ : ∃ text, numberText name = some text ∧ parseU64 text = some lsn := by
    obtain ⟨nameStr, hstr, hrest⟩ := Option.bind_eq_some_iff.mp h
    obtain ⟨text, htext, hparse⟩ := Option.bind_eq_some_iff.mp hrest
    exact ⟨text, Option.bind_eq_some_iff.mpr ⟨nameStr, hstr, htext⟩, hparse⟩
  have hname := numberText_eq_some_iff.mp htext
  have hplain : name.PlainlyNumbered ↔ text.head? ≠ some '+' ∧ (text.head? = some '0' → text = ['0']) := by
    simp only [FileName.PlainlyNumbered, htext, Option.some.injEq, forall_eq']
  rw [hplain, ← toDigits_of_parseU64_iff hparse, hname, segmentName, FileName.text.injEq]
  constructor
  · intro heq
    exact List.append_cancel_left (List.append_cancel_right heq)
  · intro heq
    rw [heq]

/-- When names and LSNs correspond. For every name that the stream yields an LSN for, that LSN leads back to the
name exactly when the number in the name is written plainly, as it is in every name written from an LSN, which
reads back as the LSN; so no two names written plainly yield the same LSN. -/
theorem segmentName_of_lsnOf_iff {name : FileName} {lsn : U64} (h : lsnOf name = some lsn) :
    (name = segmentName lsn ↔ name.PlainlyNumbered) ∧
      (∀ lsn', lsnOf (segmentName lsn') = some lsn' ∧ (segmentName lsn').PlainlyNumbered) ∧
      ∀ name', lsnOf name' = some lsn → name.PlainlyNumbered → name'.PlainlyNumbered → name' = name := by
  refine ⟨eq_segmentName_iff h, fun lsn' => ⟨lsnOf_segmentName lsn', ?_⟩, fun name' h' hplain hplain' => ?_⟩
  · exact (eq_segmentName_iff (lsnOf_segmentName lsn')).mp rfl
  · rw [(eq_segmentName_iff h').mpr hplain', (eq_segmentName_iff h).mpr hplain]

/-- The name of the segment that starts at LSN 7, whose number is written plainly. -/
theorem segmentName_of_lsnOf_seven : FileName.text "main_7.wal".toList = segmentName 7 ∧
    (FileName.text "main_7.wal".toList).PlainlyNumbered :=
  have hname : FileName.text "main_7.wal".toList = segmentName 7 := by decide
  ⟨hname, (segmentName_of_lsnOf_iff (rfl : lsnOf (.text "main_7.wal".toList) = some 7)).1.mp hname⟩

/-- A plus sign and leading zeros are taken: two more names yield LSN 7, of which neither is that of the segment. -/
theorem lenient_names : lsnOf (.text "main_+7.wal".toList) = some 7 ∧ lsnOf (.text "main_007.wal".toList) = some 7 ∧
    FileName.text "main_+7.wal".toList ≠ segmentName 7 ∧ FileName.text "main_007.wal".toList ≠ segmentName 7 := by
  refine ⟨rfl, rfl, ?_, ?_⟩
  · decide
  · decide

end Kobzar
