import Kobzar.Library.Loop
import Kobzar.Machine

/-!
# Identifiers

`IdentPath::new` checks the first and the last character of a name, and then scans it with one counter of the
colons seen so far, which it never sets back. A name is meant to be segments joined by `::`; the scan accepts
exactly the names of one or two segments, and rejects every other name (`identPath_new_iff`).
-/

namespace Kobzar

open Loop

/-- Why a name is no identifier. -/
inductive IdentError where
  | empty
  | invalidChars (ident : String) (chars : List Char)
  | cannotStartWithDigit (ident : String)
  | cannotStartWithColon (ident : String)
  | cannotEndWithColon (ident : String)
  deriving DecidableEq, Repr

/-- `IdentPath`: an identifier, with the name it was made of. -/
structure IdentPath where
  name : String
  deriving DecidableEq, Repr

/-- Where the scan of a name is: the invalid characters found, each once, and the number of colons seen. -/
structure IdentScan where
  invalidChars : List Char
  colon : Nat
  deriving DecidableEq, Repr

/-- `push_invalid`. -/
def IdentScan.pushInvalid (scan : IdentScan) (c : Char) : IdentScan :=
  if c ∈ scan.invalidChars then scan else { scan with invalidChars := scan.invalidChars ++ [c] }

/-- `colon += 1` on `i32`, checked. -/
def IdentScan.countColon (scan : IdentScan) : Outcome IdentScan :=
  if scan.colon + 1 < 2 ^ 31 then .ok { scan with colon := scan.colon + 1 } else .error .overflow

section Classes

variable (isAlphanumeric isNumeric : Char → Bool)

/-- A character of a segment. -/
def identChar (c : Char) : Bool := isAlphanumeric c || c = '_'

/-- One pass of the scan. -/
def scanChar (scan : IdentScan) (c : Char) : Outcome IdentScan :=
  if identChar isAlphanumeric c then
    if scan.colon ≠ 2 ∧ scan.colon ≠ 0 then .ok (scan.pushInvalid c) else .ok scan
  else if c = ':' then scan.countColon
  else .ok (scan.pushInvalid c)

/-- `IdentPath::new`. -/
def IdentPath.new (ident : String) : Outcome (Except IdentError IdentPath) :=
  match ident.toList with
  | [] => .ok (.error .empty)
  | first :: rest =>
    if isNumeric first then .ok (.error (.cannotStartWithDigit ident))
    else if first = ':' then .ok (.error (.cannotStartWithColon ident))
    else if (first :: rest).getLast (List.cons_ne_nil first rest) = ':' then .ok (.error (.cannotEndWithColon ident))
    else do
      let scan ← (first :: rest).foldlM (scanChar isAlphanumeric) { invalidChars := [], colon := 0 }
      if scan.invalidChars ≠ [] then return .error (.invalidChars ident scan.invalidChars)
      else return .ok { name := ident }

/-! ## What a name is meant to be -/

/-- A name spelled by segments: each of them has a character and only those of segments, and they are joined by `::`. -/
structure Spells (segments : List (List Char)) (chars : List Char) : Prop where
  ne_nil : segments ≠ []
  segment : ∀ segment ∈ segments, segment ≠ [] ∧ ∀ c ∈ segment, identChar isAlphanumeric c = true
  joined : chars = List.intercalate [':', ':'] segments

/-- A name as it is meant to be: spelled by any number of segments, and its first character is not numeric. -/
def IsIdent (ident : String) : Prop :=
  (∃ segments, Spells isAlphanumeric segments ident.toList) ∧ ∀ first ∈ ident.toList.head?,
    isNumeric first = false

/-- A name refused for its first or its last character, or for having none. -/
def RefusedAtEnds (ident : String) : Prop :=
  ident.toList = [] ∨ (∃ first ∈ ident.toList.head?, isNumeric first = true ∨ first = ':') ∨
    ident.toList.getLast? = some ':'

/-! ## What the scan accepts -/

/-- Characters that the scan finds nothing invalid in, from a number of colons seen on. -/
def Clean : Nat → List Char → Prop
  | _, [] => True
  | colon, c :: cs =>
    if identChar isAlphanumeric c then (colon = 0 ∨ colon = 2) ∧ Clean colon cs
    else if c = ':' then Clean (colon + 1) cs
    else False

end Classes

variable {isAlphanumeric isNumeric : Char → Bool}

theorem ne_colon_of_identChar (hcolon : isAlphanumeric ':' = false) {c : Char} (h : identChar isAlphanumeric c = true) :
    c ≠ ':' := by
  rintro rfl
  simp [identChar, hcolon] at h

/-- A colon is counted. -/
theorem clean_colon_cons (hcolon : isAlphanumeric ':' = false) (colon : Nat) (cs : List Char) :
    Clean isAlphanumeric colon (':' :: cs) ↔ Clean isAlphanumeric (colon + 1) cs := by
  simp [Clean, identChar, hcolon]

/-- Any other character is one of a segment, with no colon before it or two. -/
theorem clean_cons_of_ne {colon : Nat} {c : Char} {cs : List Char} (hne : c ≠ ':') :
    Clean isAlphanumeric colon (c :: cs) ↔
    (identChar isAlphanumeric c = true ∧ (colon = 0 ∨ colon = 2)) ∧ Clean isAlphanumeric colon cs := by
  rw [Clean]
  split
  · rename_i hc
    simp [hc]
  · rename_i hc
    simp [hc]

/-- An invalid character is found. -/
theorem IdentScan.pushInvalid_spec (scan : IdentScan) (c : Char) :
    (scan.pushInvalid c).invalidChars ≠ [] ∧ (scan.pushInvalid c).colon = scan.colon := by
  unfold pushInvalid
  split
  · rename_i hmem
    exact ⟨List.ne_nil_of_mem hmem, rfl⟩
  · exact ⟨by simp, rfl⟩

/-- A pass over a character that is no colon counts nothing, and finds nothing invalid in a character of a segment with no
colon before it or two. -/
theorem scanChar_of_ne (scan : IdentScan) {c : Char} (hne : c ≠ ':') :
    ∃ next, scanChar isAlphanumeric scan c = .ok next ∧ next.colon = scan.colon ∧
      (next.invalidChars = [] ↔
        scan.invalidChars = [] ∧ identChar isAlphanumeric c = true ∧ (scan.colon = 0 ∨ scan.colon = 2)) := by
  obtain ⟨hpush, hcolon⟩ := scan.pushInvalid_spec c
  unfold scanChar
  by_cases hc : identChar isAlphanumeric c = true
  · by_cases hk : scan.colon ≠ 2 ∧ scan.colon ≠ 0
    · refine ⟨scan.pushInvalid c, by rw [if_pos hc, if_pos hk], hcolon, iff_of_false hpush ?_⟩
      intro h
      omega
    · refine ⟨scan, by rw [if_pos hc, if_neg hk], rfl, ?_⟩
      have hk' : scan.colon = 0 ∨ scan.colon = 2 := by omega
      simp [hc, hk']
  · exact ⟨scan.pushInvalid c, by rw [if_neg hc, if_neg hne], hcolon, iff_of_false hpush fun h => hc h.2.1⟩

/-- What the scan does: it counts the colons, and panics when there are too many; and it has found nothing exactly
when it had found nothing and the characters are clean. -/
theorem scan_spec (hcolon : isAlphanumeric ':' = false) (chars : List Char) (scan : IdentScan)
    (hscan : scan.colon < 2 ^ 31) :
    (scan.colon + chars.count ':' < 2 ^ 31 → ∃ out, chars.foldlM (scanChar isAlphanumeric) scan = .ok out ∧
      (out.invalidChars = [] ↔ scan.invalidChars = [] ∧ Clean isAlphanumeric scan.colon chars)) ∧
    (2 ^ 31 ≤ scan.colon + chars.count ':' → chars.foldlM (scanChar isAlphanumeric) scan = .error .overflow) := by
  induction chars generalizing scan with
  | nil =>
    refine ⟨fun _ => ⟨scan, rfl, by simp [Clean]⟩, ?_⟩
    intro h
    simp only [List.count_nil] at h
    omega
  | cons c cs ih =>
    rw [List.foldlM_cons]
    by_cases hc : c = ':'
    · subst hc
      have hpass : scanChar isAlphanumeric scan ':' = scan.countColon := by simp [scanChar, identChar, hcolon]
      rw [List.count_cons_self, hpass, IdentScan.countColon, clean_colon_cons hcolon]
      by_cases hroom : scan.colon + 1 < 2 ^ 31
      · rw [if_pos hroom, ok_bind]
        obtain ⟨hends, hpanics⟩ := ih { scan with colon := scan.colon + 1 } hroom
        exact ⟨fun h => hends (by simp only; omega), fun h => hpanics (by simp only; omega)⟩
      · rw [if_neg hroom]
        exact ⟨fun h => by omega, fun _ => rfl⟩
    · obtain ⟨next, hpass, hsame, hfound⟩ := scanChar_of_ne scan hc
      rw [List.count_cons_of_ne hc, hpass, ok_bind, clean_cons_of_ne hc]
      obtain ⟨hends, hpanics⟩ := ih next (hsame ▸ hscan)
      rw [hsame] at hends hpanics
      refine ⟨fun h => ?_, hpanics⟩
      obtain ⟨out, hout, hclean⟩ := hends h
      exact ⟨out, hout, by rw [hclean, hfound, and_assoc]⟩

/-! ## What is clean -/

/-- With more than two colons before them, only colons are clean. -/
theorem eq_colon_of_clean {colon : Nat} (hmany : 2 < colon) {chars : List Char} (h : Clean isAlphanumeric colon chars) :
    ∀ c ∈ chars, c = ':' := by
  induction chars generalizing colon with
  | nil => exact fun _ hc => absurd hc List.not_mem_nil
  | cons c cs ih =>
    by_cases hc : c = ':'
    · subst hc
      refine List.forall_mem_cons.mpr ⟨rfl, ?_⟩
      unfold Clean at h
      split at h
      · omega
      · rw [if_pos rfl] at h
        exact ih (Nat.lt_succ_of_lt hmany) h
    · have := ((clean_cons_of_ne hc).mp h).1.2
      omega

/-- Characters of segments are clean, and leave the rest as clean as it is, with no colon before them or two. -/
theorem clean_append (hcolon : isAlphanumeric ':' = false) {colon : Nat} (hk : colon = 0 ∨ colon = 2)
    {front : List Char} (hfront : ∀ c ∈ front, identChar isAlphanumeric c = true) (back : List Char) :
    Clean isAlphanumeric colon (front ++ back) ↔ Clean isAlphanumeric colon back := by
  induction front with
  | nil => rfl
  | cons c front ih =>
    obtain ⟨hc, hfront⟩ := List.forall_mem_cons.mp hfront
    rw [List.cons_append, clean_cons_of_ne (ne_colon_of_identChar hcolon hc), ih hfront]
    simp [hc, hk]

/-- With two colons before them, clean characters of which the last is no colon are all of one segment. -/
theorem identChar_of_clean_two (hcolon : isAlphanumeric ':' = false) {chars : List Char}
    (h : Clean isAlphanumeric 2 chars)
    (hlast : chars.getLast? ≠ some ':') : ∀ c ∈ chars, identChar isAlphanumeric c = true := by
  induction chars with
  | nil => exact fun _ hc => absurd hc List.not_mem_nil
  | cons c cs ih =>
    by_cases hc : c = ':'
    · subst hc
      have hall := eq_colon_of_clean (Nat.lt_succ_self 2) ((clean_colon_cons hcolon 2 cs).mp h)
      refine absurd ?_ hlast
      obtain ⟨last, hsome⟩ := Option.ne_none_iff_exists'.mp
        (mt List.getLast?_eq_none_iff.mp (List.cons_ne_nil ':' cs))
      rw [hsome]
      have hmem := List.mem_of_getLast? hsome
      rcases List.mem_cons.mp hmem with rfl | hmem
      · rfl
      · rw [hall last hmem]
    · obtain ⟨⟨hident, -⟩, hrest⟩ := (clean_cons_of_ne hc).mp h
      refine List.forall_mem_cons.mpr ⟨hident, ?_⟩
      cases cs with
      | nil => exact fun _ hc => absurd hc List.not_mem_nil
      | cons d ds => exact ih hrest (by rwa [List.getLast?_cons_cons] at hlast)

/-! ## Names of segments -/

/-- The colons of joined segments are those of the separators. -/
theorem count_intercalate (hcolon : isAlphanumeric ':' = false) {segments : List (List Char)}
    (h : ∀ segment ∈ segments, ∀ c ∈ segment, identChar isAlphanumeric c = true) :
    (List.intercalate [':', ':'] segments).count ':' = 2 * (segments.length - 1) := by
  have hnone : ∀ segment : List Char, (∀ c ∈ segment, identChar isAlphanumeric c = true) →
      segment.count ':' = 0 :=
    fun segment hsegment => List.count_eq_zero.mpr fun hmem => ne_colon_of_identChar hcolon (hsegment ':' hmem) rfl
  induction segments with
  | nil => rfl
  | cons segment segments ih =>
    obtain ⟨hsegment, hrest⟩ := List.forall_mem_cons.mp h
    cases segments with
    | nil => rw [List.intercalate_singleton, hnone segment hsegment]; rfl
    | cons next segments =>
      rw [List.intercalate_cons_cons, List.count_append, List.count_append, hnone segment hsegment, ih hrest]
      simp only [List.count_cons_self, List.count_nil, List.length_cons]
      omega

/-- Joined segments start and end with a character of a segment. -/
theorem ends_intercalate {segments : List (List Char)} (hne : segments ≠ [])
    (h : ∀ segment ∈ segments, segment ≠ [] ∧ ∀ c ∈ segment, identChar isAlphanumeric c = true) :
    (∃ first, (List.intercalate [':', ':'] segments).head? = some first ∧ identChar isAlphanumeric first = true) ∧
      ∃ last, (List.intercalate [':', ':'] segments).getLast? = some last ∧ identChar isAlphanumeric last = true := by
  induction segments with
  | nil => exact absurd rfl hne
  | cons segment segments ih =>
    obtain ⟨⟨hsegment, hchars⟩, hrest⟩ := List.forall_mem_cons.mp h
    obtain ⟨first, cs, rfl⟩ := List.exists_cons_of_ne_nil hsegment
    cases segments with
    | nil =>
      rw [List.intercalate_singleton]
      refine ⟨⟨first, rfl, hchars first List.mem_cons_self⟩, (first :: cs).getLast hsegment,
        List.getLast?_eq_some_getLast hsegment, ?_⟩
      exact hchars _ (List.getLast_mem hsegment)
    | cons next segments =>
      rw [List.intercalate_cons_cons]
      obtain ⟨-, last, hlast, hident⟩ := ih (List.cons_ne_nil _ _) hrest
      refine ⟨⟨first, rfl, hchars first List.mem_cons_self⟩, last, ?_, hident⟩
      rw [List.getLast?_append, hlast]
      rfl

/-- Clean characters that start with none of a segment, and do not end with a colon, start with a separator, with one more
segment behind it. -/
theorem separator_of_clean (hcolon : isAlphanumeric ':' = false) {c : Char} {cs : List Char}
    (hnot : ¬identChar isAlphanumeric c = true) (hclean : Clean isAlphanumeric 0 (c :: cs))
    (hlast : (c :: cs).getLast? ≠ some ':') :
    ∃ segment, c :: cs = [':', ':'] ++ segment ∧ segment ≠ [] ∧
      ∀ c ∈ segment, identChar isAlphanumeric c = true := by
  have hc : c = ':' := by
    by_contra hc
    exact hnot ((clean_cons_of_ne hc).mp hclean).1.1
  subst hc
  rw [clean_colon_cons hcolon] at hclean
  rcases cs with _ | ⟨d, ds⟩
  · simp at hlast
  · have hd : d = ':' := by
      by_contra hd
      have := ((clean_cons_of_ne hd).mp hclean).1.2
      omega
    subst hd
    rw [clean_colon_cons hcolon] at hclean
    have hds : ds ≠ [] := by
      rintro rfl
      simp at hlast
    obtain ⟨e, es, rfl⟩ := List.exists_cons_of_ne_nil hds
    rw [List.getLast?_cons_cons, List.getLast?_cons_cons] at hlast
    exact ⟨e :: es, rfl, hds, identChar_of_clean_two hcolon hclean hlast⟩

/-- A name that is clean from its start on, and does not start or end with a colon, is one of one or two segments. -/
theorem spells_of_clean (hcolon : isAlphanumeric ':' = false) {chars : List Char} (hne : chars ≠ [])
    (hfirst : chars.head? ≠ some ':') (hlast : chars.getLast? ≠ some ':') (hclean : Clean isAlphanumeric 0 chars) :
    ∃ segments, Spells isAlphanumeric segments chars ∧ segments.length ≤ 2 := by
  -- the first segment goes up to the first character that is of none
  obtain ⟨front, hfront⟩ : ∃ front, front = chars.takeWhile (identChar isAlphanumeric) := ⟨_, rfl⟩
  obtain ⟨back, hback⟩ : ∃ back, back = chars.dropWhile (identChar isAlphanumeric) := ⟨_, rfl⟩
  have hsplit : chars = front ++ back := by rw [hfront, hback, List.takeWhile_append_dropWhile]
  have hident : ∀ c ∈ front, identChar isAlphanumeric c = true := fun c hc => List.mem_takeWhile_imp (hfront ▸ hc)
  rw [hsplit, clean_append hcolon (Or.inl rfl) hident] at hclean
  rcases back with _ | ⟨c, cs⟩
  · rw [List.append_nil] at hsplit
    subst hsplit
    exact ⟨[chars], ⟨List.cons_ne_nil _ _, by simpa using ⟨hne, hident⟩, by rw [List.intercalate_singleton]⟩,
      by simp⟩
  · have hnot : ¬identChar isAlphanumeric c = true := by
      have := List.head?_dropWhile_not (identChar isAlphanumeric) chars
      rw [← hback] at this
      simpa using this
    rw [hsplit, List.getLast?_append_of_ne_nil _ (List.cons_ne_nil _ _)] at hlast
    obtain ⟨segment, hseparated, hsegment, hident'⟩ := separator_of_clean hcolon hnot hclean hlast
    rw [hseparated] at hsplit
    have hfront' : front ≠ [] := by
      rintro rfl
      exact hfirst (by rw [hsplit]; rfl)
    refine ⟨[front, segment], ⟨List.cons_ne_nil _ _, ?_, ?_⟩, Nat.le_refl 2⟩
    · simpa using ⟨⟨hfront', hident⟩, hsegment, hident'⟩
    · rw [hsplit, List.intercalate_cons_cons, List.intercalate_singleton, List.append_assoc]

/-- A name of one or two segments is clean from its start on. -/
theorem clean_of_spells (hcolon : isAlphanumeric ':' = false) {chars : List Char} {segments : List (List Char)}
    (h : Spells isAlphanumeric segments chars) (hlen : segments.length ≤ 2) : Clean isAlphanumeric 0 chars := by
  obtain ⟨hsegments, hsegment, rfl⟩ := h
  rcases segments with _ | ⟨front, _ | ⟨back, _ | ⟨_, _⟩⟩⟩
  · exact absurd rfl hsegments
  · have hfront := (hsegment front (by simp)).2
    rw [List.intercalate_singleton, ← List.append_nil front, clean_append hcolon (Or.inl rfl) hfront]
    trivial
  · have hfront := (hsegment front (by simp)).2
    have hback := (hsegment back (by simp)).2
    rw [List.intercalate_cons_cons, List.intercalate_singleton, List.append_assoc,
      clean_append hcolon (Or.inl rfl) hfront,
      List.cons_append, clean_colon_cons hcolon, List.cons_append, clean_colon_cons hcolon, List.nil_append,
      ← List.append_nil back, clean_append hcolon (Or.inr rfl) hback]
    trivial
  · simp only [List.length_cons] at hlen
    omega

/-- The names that are clean from their start on, and do not start or end with a colon, are those of one or two
segments. -/
theorem clean_iff_spells (hcolon : isAlphanumeric ':' = false) {chars : List Char} (hne : chars ≠ [])
    (hfirst : chars.head? ≠ some ':') (hlast : chars.getLast? ≠ some ':') :
    Clean isAlphanumeric 0 chars ↔ ∃ segments, Spells isAlphanumeric segments chars ∧ segments.length ≤ 2 :=
  ⟨spells_of_clean hcolon hne hfirst hlast, fun ⟨_, hspells, hlen⟩ => clean_of_spells hcolon hspells hlen⟩

/-! ## What `IdentPath::new` accepts -/

/-- A name refused for its ends is rejected. -/
theorem new_of_refused {ident : String} (h : RefusedAtEnds isNumeric ident) :
    ∃ e, IdentPath.new isAlphanumeric isNumeric ident = .ok (.error e) := by
  unfold IdentPath.new
  unfold RefusedAtEnds at h
  rcases hchars : ident.toList with _ | ⟨first, rest⟩
  · exact ⟨_, rfl⟩
  · rw [hchars] at h
    simp only
    split
    · exact ⟨_, rfl⟩
    · split
      · exact ⟨_, rfl⟩
      · rename_i hnumeric hcolon
        rcases h with h | ⟨c, hc, hbad⟩ | hlast
        · exact absurd h (List.cons_ne_nil _ _)
        · cases hc
          exact absurd hbad (not_or.mpr ⟨hnumeric, hcolon⟩)
        · rw [List.getLast?_eq_some_getLast (List.cons_ne_nil first rest), Option.some.injEq] at hlast
          exact ⟨_, if_pos hlast⟩

/-- A name not refused for its ends is scanned. -/
theorem new_of_not_refused {ident : String} (h : ¬RefusedAtEnds isNumeric ident) :
    IdentPath.new isAlphanumeric isNumeric ident =
      (ident.toList.foldlM (scanChar isAlphanumeric) { invalidChars := [], colon := 0 } >>= fun scan =>
        if scan.invalidChars ≠ [] then .ok (.error (.invalidChars ident scan.invalidChars))
        else .ok (.ok { name := ident })) := by
  unfold IdentPath.new
  unfold RefusedAtEnds at h
  rcases hchars : ident.toList with _ | ⟨first, rest⟩
  · exact absurd (Or.inl hchars) h
  · rw [hchars] at h
    obtain ⟨-, hfirst, hlast⟩ := not_or.mp h |>.imp_right not_or.mp
    have hnumeric : ¬isNumeric first = true := fun hn => hfirst ⟨first, rfl, Or.inl hn⟩
    have hcolon : ¬first = ':' := fun hc => hfirst ⟨first, rfl, Or.inr hc⟩
    rw [List.getLast?_eq_some_getLast (List.cons_ne_nil first rest), Option.some.injEq] at hlast
    simp only [if_neg hnumeric, if_neg hcolon, if_neg hlast]
    rfl

/-- What becomes of a name not refused for its ends: with too many colons the scan panics; else the name is
accepted when it is spelled by one or two segments, and rejected when it is not. -/
theorem new_spec (hcolon : isAlphanumeric ':' = false) {ident : String} (h : ¬RefusedAtEnds isNumeric ident) :
    (2 ^ 31 ≤ ident.toList.count ':' → IdentPath.new isAlphanumeric isNumeric ident = .error .overflow) ∧
    (ident.toList.count ':' < 2 ^ 31 →
      (∃ segments, Spells isAlphanumeric segments ident.toList ∧ segments.length ≤ 2) ∧
          IdentPath.new isAlphanumeric isNumeric ident = .ok (.ok { name := ident }) ∨
        (¬∃ segments, Spells isAlphanumeric segments ident.toList ∧ segments.length ≤ 2) ∧
          ∃ e, IdentPath.new isAlphanumeric isNumeric ident = .ok (.error e)) := by
  obtain ⟨hends, hpanics⟩ := scan_spec hcolon ident.toList { invalidChars := [], colon := 0 } (by decide)
  simp only [Nat.zero_add, true_and] at hends hpanics
  rw [new_of_not_refused h]
  refine ⟨fun hmany => by rw [hpanics hmany]; rfl, ?_⟩
  intro hfew
  obtain ⟨out, hout, hfound⟩ := hends hfew
  obtain ⟨hne, hfirst, hlast⟩ := not_or.mp h |>.imp_right not_or.mp
  rw [clean_iff_spells hcolon hne (fun hc => hfirst ⟨':', hc, Or.inr rfl⟩) hlast] at hfound
  rw [hout, ok_bind]
  by_cases hinvalid : out.invalidChars = []
  · exact Or.inl ⟨hfound.mp hinvalid, if_neg (not_not.mpr hinvalid)⟩
  · exact Or.inr ⟨mt hfound.mpr hinvalid, _, if_pos hinvalid⟩

/-- A name is spelled by one number of segments only. -/
theorem Spells.length_eq (hcolon : isAlphanumeric ':' = false) {chars : List Char} {segments segments' : List (List Char)}
    (h : Spells isAlphanumeric segments chars) (h' : Spells isAlphanumeric segments' chars) :
    segments.length = segments'.length := by
  have hcount := count_intercalate hcolon fun segment hsegment => (h.segment segment hsegment).2
  have hcount' := count_intercalate hcolon fun segment hsegment => (h'.segment segment hsegment).2
  rw [← h.joined] at hcount
  rw [← h'.joined] at hcount'
  have hpos := List.length_pos_iff.mpr h.ne_nil
  have hpos' := List.length_pos_iff.mpr h'.ne_nil
  omega

/-- A name is recognised exactly as it is meant to be: accepted as it is when it is spelled by segments and does
not start with a numeric character, and rejected with an error otherwise. -/
def Recognised (isAlphanumeric isNumeric : Char → Bool) (ident : String) : Prop :=
  (IdentPath.new isAlphanumeric isNumeric ident = .ok (.ok { name := ident }) ↔
    IsIdent isAlphanumeric isNumeric ident) ∧
    (¬IsIdent isAlphanumeric isNumeric ident → ∃ e, IdentPath.new isAlphanumeric isNumeric ident = .ok (.error e))

/-- A name spelled by segments is not refused for a colon at its ends, nor for having no character. -/
theorem IsIdent.not_refused (hcolon : isAlphanumeric ':' = false) {ident : String}
    (h : IsIdent isAlphanumeric isNumeric ident) : ¬RefusedAtEnds isNumeric ident := by
  obtain ⟨⟨segments, hne, hsegment, hjoined⟩, hnumeric⟩ := h
  obtain ⟨⟨first, hfirst, hident⟩, last, hlast, hident'⟩ := ends_intercalate hne hsegment
  rw [← hjoined] at hfirst hlast
  rintro (hnil | ⟨c, hc, hbad⟩ | hbad)
  · rw [hnil] at hfirst
    cases hfirst
  · rw [hfirst] at hc
    cases hc
    rcases hbad with hbad | hbad
    · rw [hnumeric first hfirst] at hbad
      cases hbad
    · exact ne_colon_of_identChar hcolon hident hbad
  · rw [hlast, Option.some.injEq] at hbad
    exact ne_colon_of_identChar hcolon hident' hbad

/-- A name not refused for its ends is as it is meant to be when it is spelled by segments. -/
theorem isIdent_iff_spelled {ident : String} (h : ¬RefusedAtEnds isNumeric ident) :
    IsIdent isAlphanumeric isNumeric ident ↔ ∃ segments, Spells isAlphanumeric segments ident.toList := by
  unfold IsIdent
  refine and_iff_left ?_
  intro first hfirst
  by_contra hnumeric
  exact h (Or.inr (Or.inl ⟨first, hfirst, Or.inl (by simpa using hnumeric)⟩))

/-- When a name is recognised as it is meant to be: when it is refused for its ends already, or has fewer colons than the
counter counts and is not spelled by three segments or more. -/
theorem identPath_new_iff (isAlphanumeric isNumeric : Char → Bool) (hcolon : isAlphanumeric ':' = false)
    (ident : String) :
    Recognised isAlphanumeric isNumeric ident ↔ (RefusedAtEnds isNumeric ident ∨ (ident.toList.count ':' < 2 ^ 31 ∧
      ¬∃ segments, Spells isAlphanumeric segments ident.toList ∧ 3 ≤ segments.length)) := by
  by_cases href : RefusedAtEnds isNumeric ident
  · refine iff_of_true ?_ (Or.inl href)
    obtain ⟨e, he⟩ : ∃ e, IdentPath.new isAlphanumeric isNumeric ident = .ok (.error e) := new_of_refused href
    have hnot : ¬IsIdent isAlphanumeric isNumeric ident := fun h => h.not_refused hcolon href
    exact ⟨iff_of_false (by rw [he]; exact nofun) hnot, fun _ => ⟨e, he⟩⟩
  · rw [or_iff_right href]
    obtain ⟨hpanics, hends⟩ := new_spec hcolon href
    rcases Nat.lt_or_ge (ident.toList.count ':') (2 ^ 31) with hfew | hmany
    · rw [and_iff_right hfew, Recognised, isIdent_iff_spelled href]
      rcases hends hfew with ⟨⟨segments, hspells, hlen⟩, hnew⟩ | ⟨hnone, e, hnew⟩
      · refine iff_of_true ⟨iff_of_true hnew ⟨segments, hspells⟩,
          fun hnot => absurd ⟨segments, hspells⟩ hnot⟩ ?_
        rintro ⟨segments', hspells', hlen'⟩
        have := hspells.length_eq hcolon hspells'
        omega
      · -- the name is rejected, and so must not be spelled by any segments
        have hmore : (∃ segments, Spells isAlphanumeric segments ident.toList ∧ 3 ≤ segments.length) ↔
            ∃ segments, Spells isAlphanumeric segments ident.toList := by
          constructor
          · rintro ⟨segments, hspells, -⟩
            exact ⟨segments, hspells⟩
          · rintro ⟨segments, hspells⟩
            refine ⟨segments, hspells, ?_⟩
            by_contra hlt
            exact hnone ⟨segments, hspells, by omega⟩
        rw [hmore, hnew]
        constructor
        · intro hrec hspelled
          exact nomatch hrec.1.mpr hspelled
        · intro hnot
          exact ⟨iff_of_false nofun hnot, fun _ => ⟨e, rfl⟩⟩
    · refine iff_of_false (fun hrec => ?_) fun hcond => by omega
      rw [Recognised, hpanics hmany] at hrec
      by_cases his : IsIdent isAlphanumeric isNumeric ident
      · exact nomatch hrec.1.mpr his
      · obtain ⟨e, he⟩ := hrec.2 his
        cases he

/-! ### ASCII letters and digits -/

/-- A name of two segments is recognised, and so it is not spelled by three. -/
theorem identPath_new_two_segments : Recognised Char.isAlphanum Char.isDigit "geo::point" ∧
    ¬∃ segments, Spells Char.isAlphanum segments "geo::point".toList ∧ 3 ≤ segments.length := by
  have hident : IsIdent Char.isAlphanum Char.isDigit "geo::point" :=
    ⟨⟨[['g', 'e', 'o'], ['p', 'o', 'i', 'n', 't']], by decide, by simp [identChar], rfl⟩, by simp⟩
  have hrec : Recognised Char.isAlphanum Char.isDigit "geo::point" :=
    ⟨iff_of_true rfl hident, fun hnot => absurd hident hnot⟩
  refine ⟨hrec, ?_⟩
  rcases (identPath_new_iff Char.isAlphanum Char.isDigit (by decide) "geo::point").mp hrec with hends | ⟨-, hnot⟩
  · exact absurd hends (IsIdent.not_refused (by decide) hident)
  · exact hnot

/-- A name of three segments is rejected. -/
theorem identPath_rejects_three_segments : IsIdent Char.isAlphanum Char.isDigit "a::b::c" ∧
    IdentPath.new Char.isAlphanum Char.isDigit "a::b::c" = .ok (.error (.invalidChars "a::b::c" ['c'])) := by
  exact ⟨⟨⟨[['a'], ['b'], ['c']], by decide, by simp [identChar], rfl⟩, by simp⟩, rfl⟩

end Kobzar
