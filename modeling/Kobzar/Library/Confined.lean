import Kobzar.Library.Overwriting

/-!
# What a buffered writer changes

Calls of a writer may take a part of what they are given, and seeks may be refused. However far they come, while
the device refuses no write they change the places alone that they were asked to write at, and fill the gap that a
move leaves behind the end of the file (`Confined`).
-/

namespace Overwriting

open Reading Writer

variable {α : Type}

/-- What may be at a place: what was there, what was asked for, or the filling of a gap behind the end. -/
def Allowed (fill : α) (old : List α) (asked : Nat → α → Prop) (i : Nat) (found : Option α) : Prop :=
  found = old[i]? ∨ ∃ x, found = some x ∧ (asked i x ∨ old.length ≤ i ∧ x = fill)

/-- Nothing is held but what was asked for, and nothing else was written to what the file was. -/
structure Confined (fill : α) (old : List α) (asked : Nat → α → Prop) (file : Reading.File α) (buffer : List α) :
    Prop where
  buffered : ∀ k x, buffer[k]? = some x → asked (file.pos + k) x
  stored : ∀ i, Allowed fill old asked i file.contents[i]?

variable {fill : α} {old contents piece buffer out rest : List α} {asked asked' : Nat → α → Prop}
  {file : Reading.File α}
  {place i : Nat}

/-- Outside a piece that is put there is what was there, or the filling behind its end. -/
theorem getElem?_patch_outside (fill : α) (contents : List α) (hnot : ¬(place ≤ i ∧ i < place + piece.length)) :
    (patch fill contents place piece)[i]? = contents[i]? ∨
      contents.length ≤ i ∧ (patch fill contents place piece)[i]? = some fill := by
  rcases hget : contents[i]? with _ | x
  · have hlen := List.getElem?_eq_none_iff.mp hget
    cases piece with
    | nil => exact Or.inl hget
    | cons y piece =>
      have hgap : (contents.take place).length = min place contents.length := List.length_take
      rcases Nat.lt_or_ge i place with hlt | hge
      · -- in the gap
        refine Or.inr ⟨hlen, ?_⟩
        rw [patch, List.append_assoc, List.append_assoc, List.getElem?_append_right (by omega),
          List.getElem?_append_left (by rw [List.length_replicate]; omega), List.getElem?_replicate, if_pos (by omega)]
      · refine Or.inl (List.getElem?_eq_none ?_)
        rw [patch]
        simp only [List.length_append, List.length_replicate, List.length_drop, hgap]
        omega
  · exact Or.inl (getElem?_patch_of_not_mem fill hget hnot)

/-- A piece that was asked for may be put at its place. -/
theorem Allowed.patch (h : ∀ i, Allowed fill old asked i contents[i]?)
    (hpiece : ∀ k x, piece[k]? = some x → asked (place + k) x) (i : Nat) :
    Allowed fill old asked i (patch fill contents place piece)[i]? := by
  by_cases hin : place ≤ i ∧ i < place + piece.length
  · have hk : i - place < piece.length := by omega
    have hask := hpiece _ _ (List.getElem?_eq_getElem hk)
    rw [Nat.add_sub_cancel' hin.1] at hask
    rw [getElem?_patch_of_mem fill _ hin.1 hin.2]
    exact Or.inr ⟨_, List.getElem?_eq_getElem hk, Or.inl hask⟩
  · rcases getElem?_patch_outside fill contents hin with hsame | ⟨hlen, hfill⟩
    · rw [hsame]
      exact h i
    · have hold : old.length ≤ i := by
        rcases h i with hsame | ⟨x, hx, -⟩
        · exact List.getElem?_eq_none_iff.mp (hsame ▸ List.getElem?_eq_none hlen)
        · rw [List.getElem?_eq_none hlen] at hx
          cases hx
      exact Or.inr ⟨fill, hfill, Or.inr ⟨hold, rfl⟩⟩

/-- What is confined to some places is confined to more. -/
theorem Confined.mono (h : Confined fill old asked file buffer) (hle : ∀ i x, asked i x → asked' i x) :
    Confined fill old asked' file buffer where
  buffered k x hk := hle _ _ (h.buffered k x hk)
  stored i := (h.stored i).imp_right fun ⟨x, hx, hask⟩ => ⟨x, hx, hask.imp_left (hle i x)⟩

/-- A new writer has changed nothing. -/
theorem confined_new (fill : α) (asked : Nat → α → Prop) (file : Reading.File α) :
    Confined fill file.contents asked file [] where
  buffered k x hk := by simp at hk
  stored i := Or.inl rfl

/-- When nothing is held, the file may move. -/
theorem Confined.move (h : Confined fill old asked file []) (place : Nat) :
    Confined fill old asked { file with pos := place } [] where
  buffered k x hk := by simp at hk
  stored := h.stored

/-- What was asked for behind all that is held may be held too. -/
theorem Confined.hold (h : Confined fill old asked file buffer)
    (hpiece : ∀ k x, piece[k]? = some x → asked (file.pos + buffer.length + k) x) :
    Confined fill old asked file (buffer ++ piece) where
  buffered k x hk := by
    rcases Nat.lt_or_ge k buffer.length with hlt | hge
    · rw [List.getElem?_append_left hlt] at hk
      exact h.buffered k x hk
    · rw [List.getElem?_append_right hge] at hk
      have hask := hpiece _ x hk
      rwa [Nat.add_assoc, Nat.add_sub_cancel' hge] at hask
  stored := h.stored

/-- The front of what is held may be written out. -/
theorem Confined.writeOut [Zero α] (h : Confined 0 old asked file (out ++ rest)) :
    Confined 0 old asked (Sink.put file out) rest where
  buffered k x hk := by
    have hask := h.buffered (out.length + k) x
      (by rwa [List.getElem?_append_right (Nat.le_add_right _ _), Nat.add_sub_cancel_left])
    rwa [← Nat.add_assoc] at hask
  stored := Allowed.patch h.stored fun k x hk =>
    h.buffered k x (by rwa [List.getElem?_append_left (List.getElem?_eq_some_iff.mp hk).1])

section Operations

variable [Zero α] {inner inner' : Writer.BufWriter (Reading.File α) α} {given : List α} {done : Bool}
  {w : BufWriter α}
  {target : Option Nat} {grant : SeekGrant}

/-- A call that takes what was asked for, when the device refuses nothing, leaves the writer confined. -/
theorem Confined.passes (h : Confined 0 old asked inner.sink inner.buffer) (hpasses : inner.Passes given done inner')
    (hkept : inner'.refused = inner.refused)
    (hgiven : ∀ k x, given[k]? = some x → asked (Overwriting.place inner + k) x) :
    Confined 0 old asked inner'.sink inner'.buffer := by
  obtain ⟨out, hsink, hparts⟩ := hpasses.kept hkept
  have hconfined := h.hold hgiven
  rw [hparts] at hconfined
  rw [hsink]
  exact hconfined.writeOut

/-- A seek, made or refused, leaves the writer confined, when the device refuses no write. -/
theorem Confined.seek (h : Confined 0 old asked w.sink w.buffer) (hfailed : w.failed = false)
    (hseeking : w.seeking = none) (hkept : (w.seek target grant).2.refused = w.refused) :
    Confined 0 old asked (w.seek target grant).2.sink (w.seek target grant).2.buffer := by
  obtain ⟨inner, hpasses, hnil, -, hsame, heq⟩ := BufWriter.seek_of_clear hfailed hseeking hkept
  have hconfined := h.passes hpasses hsame fun k x hk => by simp at hk
  rw [hnil] at hconfined
  rw [heq]
  cases grant.asked with
  | false => exact hnil ▸ hconfined
  | true =>
    simp only [sought, if_true, hnil]
    exact hconfined.move _

end Operations

end Overwriting
