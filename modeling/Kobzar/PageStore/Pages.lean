import Kobzar.Library.Bytes
import Kobzar.Pidx.Page

/-!
# Pages as bytes

A page is read from disk by taking its bytes as they lie there. Both types of pages are laid out without padding,
so that any bytes of the page's size are a page, and different bytes are different pages (`Pod`).
-/

namespace Kobzar

open Bytes

/-- A type of pages that is read from bytes: its size, the page that bytes of this size are, and that they are all
of it. -/
class Pod (P : Type) where
  size : Nat
  ofBytes : List U8 → P
  ofBytes_inj : ∀ {bs cs : List U8}, bs.length = size → cs.length = size → ofBytes bs = ofBytes cs → bs = cs

/-- Index page size in bytes (`INDEX_PAGE_SIZE`). -/
def indexPageSize : Nat := 4096

/-- Index page: plain bytes. -/
structure IdxPage where
  bytes : Fin indexPageSize → U8

/-- The byte at a place of an index page. -/
def IdxPage.byteAt (page : IdxPage) (place : Nat) : U8 :=
  if h : place < indexPageSize then page.bytes ⟨place, h⟩ else 0

/-- The index page that bytes are. -/
def IdxPage.ofBytes (bytes : List U8) : IdxPage := { bytes := fun place => bytes.getD place.val 0 }

/-- Different bytes are different index pages. -/
theorem IdxPage.ofBytes_inj {bs cs : List U8} (hb : bs.length = indexPageSize) (hc : cs.length = indexPageSize)
    (h : IdxPage.ofBytes bs = IdxPage.ofBytes cs) : bs = cs := by
  apply List.ext_getElem (hb.trans hc.symm)
  intro i hi hi'
  have hget := congrFun (congrArg IdxPage.bytes h) ⟨i, by omega⟩
  simpa [IdxPage.ofBytes, hi, hi'] using hget

instance : Pod IdxPage where
  size := indexPageSize
  ofBytes := IdxPage.ofBytes
  ofBytes_inj := IdxPage.ofBytes_inj

namespace Pidx

/-- Where a column of a page starts, by the number of columns before it: each of these takes eight bytes a record. -/
def columnStart (columns : Nat) : Nat := pageSizeRecs * 8 * columns

/-- The primary index page that bytes are. -/
def Page.ofBytes (bytes : List U8) : Page where
  group := Vector.ofFn fun i =>
    { size := wordAt 4 bytes (8 * i.val), offset := wordAt 4 bytes (8 * i.val + 4) }
  xmin := Vector.ofFn fun i => wordAt 8 bytes (columnStart 1 + 8 * i.val)
  xmax := Vector.ofFn fun i => wordAt 8 bytes (columnStart 2 + 8 * i.val)
  next := Vector.ofFn fun i => wordAt 8 bytes (columnStart 3 + 8 * i.val)
  prev := Vector.ofFn fun i => wordAt 8 bytes (columnStart 4 + 8 * i.val)
  schemaVersion := Vector.ofFn fun i => wordAt 4 bytes (columnStart 5 + 4 * i.val)

/-- The size of a primary index page in bytes. -/
def Page.size : Nat := columnStart 5 + pageSizeRecs * 4

/-- Lists of words that agree have the same bytes there. -/
theorem getElem_of_words_eq (n count : Nat) {place i : Nat} {bs cs : List U8} (hn : 0 < n) (hlen : bs.length = cs.length)
    (hend : place + count * n ≤ bs.length) (hi : place ≤ i) (hi' : i < place + count * n)
    (h : ∀ k < count, wordAt n bs (place + n * k) = wordAt n cs (place + n * k)) : bs[i]? = cs[i]? := by
  have hk : (i - place) / n < count := by
    rw [Nat.div_lt_iff_lt_mul hn]
    omega
  have hsplit : place + n * ((i - place) / n) + (i - place) % n = i := by
    have := Nat.div_add_mod (i - place) n
    omega
  have hmul : n * ((i - place) / n) + n ≤ count * n := by
    rw [← Nat.mul_succ, Nat.mul_comm]
    exact Nat.mul_le_mul_right n hk
  have hbyte := getElem_of_wordAt_eq (r := (i - place) % n) (by omega) (by omega) (Nat.mod_lt _ hn) (h _ hk)
  rwa [hsplit] at hbyte

/-- Columns that agree are the same words. -/
theorem words_of_column_eq {n start : Nat} {bs cs : List U8}
    (h : (Vector.ofFn fun i : Fin pageSizeRecs => wordAt n bs (start + n * i.val)) =
      Vector.ofFn fun i : Fin pageSizeRecs => wordAt n cs (start + n * i.val)) :
    ∀ k < pageSizeRecs, wordAt n bs (start + n * k) = wordAt n cs (start + n * k) := by
  intro k hk
  have hget := congrArg (fun column => column[k]) h
  simpa using hget

/-- Different bytes are different primary index pages. -/
theorem Page.ofBytes_inj {bs cs : List U8} (hb : bs.length = Page.size) (hc : cs.length = Page.size)
    (h : Page.ofBytes bs = Page.ofBytes cs) : bs = cs := by
  have hlen : bs.length = cs.length := hb.trans hc.symm
  simp only [Page.ofBytes, Page.mk.injEq] at h
  obtain ⟨hgroup, hxmin, hxmax, hnext, hprev, hversion⟩ := h
  have hxmin := words_of_column_eq hxmin
  have hxmax := words_of_column_eq hxmax
  have hnext := words_of_column_eq hnext
  have hprev := words_of_column_eq hprev
  have hversion := words_of_column_eq hversion
  -- the first column has two words a record
  have hpairs : ∀ k < 2 * pageSizeRecs, wordAt 4 bs (0 + 4 * k) = wordAt 4 cs (0 + 4 * k) := by
    intro k hk
    have hget := congrArg (fun column => column[k / 2]) hgroup
    simp only [Vector.getElem_ofFn, PageGroupFields.mk.injEq] at hget
    rcases Nat.mod_two_eq_zero_or_one k with heven | hodd
    · have hplace : 0 + 4 * k = 8 * (k / 2) := by omega
      rw [hplace]
      exact hget.1
    · have hplace : 0 + 4 * k = 8 * (k / 2) + 4 := by omega
      rw [hplace]
      exact hget.2
  apply List.ext_getElem?
  intro i
  simp only [Page.size, columnStart, pageSizeRecs] at *
  by_cases h0 : i < 4096 * 8
  · exact getElem_of_words_eq 4 8192 (by decide) hlen (by omega) (Nat.zero_le i) (by omega) hpairs
  by_cases h1 : i < 4096 * 8 * 2
  · exact getElem_of_words_eq 8 4096 (by decide) hlen (by omega) (by omega) (by omega) hxmin
  by_cases h2 : i < 4096 * 8 * 3
  · exact getElem_of_words_eq 8 4096 (by decide) hlen (by omega) (by omega) (by omega) hxmax
  by_cases h3 : i < 4096 * 8 * 4
  · exact getElem_of_words_eq 8 4096 (by decide) hlen (by omega) (by omega) (by omega) hnext
  by_cases h4 : i < 4096 * 8 * 5
  · exact getElem_of_words_eq 8 4096 (by decide) hlen (by omega) (by omega) (by omega) hprev
  by_cases h5 : i < 4096 * 8 * 5 + 4096 * 4
  · exact getElem_of_words_eq 4 4096 (by decide) hlen (by omega) (by omega) (by omega) hversion
  · rw [List.getElem?_eq_none (by omega), List.getElem?_eq_none (by omega)]

instance : Pod Page where
  size := Page.size
  ofBytes := Page.ofBytes
  ofBytes_inj := Page.ofBytes_inj

end Pidx

end Kobzar
