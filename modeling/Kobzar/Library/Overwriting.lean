import Kobzar.Library.Reading
import Kobzar.Library.Writer

/-!
# Writing at places of a file, through a buffer

A piece is put at the position of a file, which moves behind it. A buffered writer that is asked to move hands on
what it holds first; what it still holds when it is dropped is lost. While the device refuses nothing, the elements
last put at each place (`record`) stand in the file or are held for the place (`Held`).
-/

namespace Overwriting

open Reading Writer

variable {α : Type}

/-- What a list becomes when a piece is put at a place: the piece replaces what stood there, a gap before it is
filled, and an empty piece changes nothing. -/
def patch (fill : α) (contents : List α) (place : Nat) (piece : List α) : List α :=
  match piece with
  | [] => contents
  | _ :: _ =>
    contents.take place ++ List.replicate (place - contents.length) fill ++ piece ++ contents.drop (place + piece.length)

/-- What was last put at each place, after a piece is put at one. -/
def record (last : Nat → Option α) (place : Nat) (piece : List α) (i : Nat) : Option α :=
  if place ≤ i ∧ i < place + piece.length then piece[i - place]? else last i

/-- A piece put behind another is put as one with it. -/
theorem patch_append (fill : α) (contents : List α) (place : Nat) (front back : List α) :
    patch fill contents place (front ++ back) =
      patch fill (patch fill contents place front) (place + front.length) back := by
  rcases front with _ | ⟨x, front⟩
  · rfl
  · rcases back with _ | ⟨y, back⟩
    · simp only [List.append_nil, patch]
    · generalize hgap : contents.take place ++ List.replicate (place - contents.length) fill = gap
      have hlen : gap.length = place := by
        rw [← hgap, List.length_append, List.length_take, List.length_replicate]
        omega
      have hfront : (gap ++ (x :: front)).length = place + (x :: front).length := by rw [List.length_append, hlen]
      have hbehind : ∀ rest n, (gap ++ (x :: front) ++ rest).drop (place + (x :: front).length + n) = rest.drop n := by
        intro rest n
        rw [← List.drop_drop, List.drop_left' hfront]
      have hnone : place + (x :: front).length -
          (gap ++ (x :: front) ++ contents.drop (place + (x :: front).length)).length = 0 := by
        rw [List.length_append, hfront]
        omega
      simp only [patch, List.cons_append]
      rw [hgap, ← List.cons_append, hnone, List.replicate_zero, List.append_nil, List.take_left' hfront,
        hbehind, List.drop_drop, List.length_append, Nat.add_assoc]
      simp only [List.append_assoc]

/-- A file that pieces are put into at its position, and in which a gap is filled with zeros. -/
instance [Zero α] : Sink (Reading.File α) α where
  put file piece := { contents := patch 0 file.contents file.pos piece, pos := file.pos + piece.length }
  put_nil _ := rfl
  put_append file front back := by
    rw [patch_append, List.length_append, Nat.add_assoc]

/-- `io::BufWriter` of a file that is sought: with the place of a seek that was begun and not made, since what was
held could not be handed on; no place stands for where the file is. -/
structure BufWriter (α : Type) extends Writer.BufWriter (Reading.File α) α where
  seeking : Option (Option Nat)
  deriving DecidableEq, Repr

/-- Which seeks the device makes: one that was left over, and the one that is asked for. -/
structure SeekGrant where
  leftover : Bool
  asked : Bool
  deriving DecidableEq, Repr

/-- Where the next piece is put by a writer. -/
def place (w : Writer.BufWriter (Reading.File α) α) : Nat := w.sink.pos + w.buffer.length

/-- A writer of which the device was asked for a seek, to a place or to where the file is. -/
def sought (w : Writer.BufWriter (Reading.File α) α) (target : Option Nat) (granted : Bool) :
    Writer.BufWriter (Reading.File α) α :=
  if granted then
    { w with
      file := { w.file with
        device := { w.file.device with
          sink := { w.sink with pos := target.getD w.sink.pos } } } }
  else w

/-- A seek, made or not, changes nothing else. -/
theorem sought_keeps (w : Writer.BufWriter (Reading.File α) α) (target : Option Nat) (granted : Bool) :
    (sought w target granted).sink.contents = w.sink.contents ∧ (sought w target granted).buffer = w.buffer ∧
      (sought w target granted).failed = w.failed ∧ (sought w target granted).refused = w.refused := by
  cases granted <;> exact ⟨rfl, rfl, rfl, rfl⟩

/-- Where a seek leaves a writer that holds nothing. -/
theorem place_sought {w : Writer.BufWriter (Reading.File α) α} (hnil : w.buffer = []) (target : Option Nat)
    (granted : Bool) : place (sought w target granted) = if granted then target.getD (place w) else place w := by
  cases granted with
  | false => rfl
  | true => simp [sought, place, hnil]

namespace BufWriter

variable [Zero α]

/-- `poll_complete`: makes a seek that was begun, after all that is held is handed on. If that fails, the seek
stays begun; if the device refuses it, it is given up. -/
def complete (w : BufWriter α) (granted : Bool) : Bool × BufWriter α :=
  match w.seeking with
  | none => (true, w)
  | some target =>
    match w.flushBuf with
    | (false, inner) => (false, ⟨inner, some target⟩)
    | (true, inner) => (granted, ⟨sought inner target granted, none⟩)

/-- `seek`, to a place or to where the file is: a seek that was left over is made first. -/
def seek (w : BufWriter α) (target : Option Nat) (grant : SeekGrant) : Bool × BufWriter α :=
  match w.complete grant.leftover with
  | (false, w) => (false, w)
  | (true, w) => complete ⟨w.toBufWriter, some target⟩ grant.asked

end BufWriter

/-! ## Patches -/

/-- A piece stands where it was put. -/
theorem getElem?_patch_of_mem (fill : α) (contents : List α) {place : Nat} {piece : List α} {i : Nat}
    (hle : place ≤ i)
    (hlt : i < place + piece.length) : (patch fill contents place piece)[i]? = piece[i - place]? := by
  cases piece with
  | nil => simp at hlt; omega
  | cons x piece =>
    have hlen : (contents.take place ++ List.replicate (place - contents.length) fill).length = place := by
      rw [List.length_append, List.length_take, List.length_replicate]
      omega
    rw [patch, List.getElem?_append_left (by rw [List.length_append, hlen]; exact hlt),
      List.getElem?_append_right (by rw [hlen]; exact hle), hlen]

/-- What stood elsewhere stays. -/
theorem getElem?_patch_of_not_mem (fill : α) {contents : List α} {place : Nat} {piece : List α} {i : Nat} {x : α}
    (hx : contents[i]? = some x) (hnot : ¬(place ≤ i ∧ i < place + piece.length)) :
    (patch fill contents place piece)[i]? = some x := by
  obtain ⟨hi, hxi⟩ := List.getElem?_eq_some_iff.mp hx
  cases piece with
  | nil => exact hx
  | cons y piece =>
    have hlen : (contents.take place ++ List.replicate (place - contents.length) fill).length = place := by
      rw [List.length_append, List.length_take, List.length_replicate]
      omega
    unfold patch
    rcases Nat.lt_or_ge i place with hlt | hge
    · rw [List.append_assoc, List.append_assoc, List.getElem?_append_left (by rw [List.length_take]; omega),
        List.getElem?_take_of_lt hlt, hx]
    · rw [List.getElem?_append_right (by rw [List.length_append, hlen]; omega), List.getElem?_drop,
        List.length_append, hlen, ← hx]
      congr 1
      omega

/-! ## What was last put at each place -/

/-- Putting nothing changes nothing. -/
@[simp] theorem record_nil (last : Nat → Option α) (place : Nat) : record last place [] = last := by
  funext i
  rw [record, if_neg]
  simp only [List.length_nil]
  omega

/-- Two pieces put one behind the other are put as one. -/
theorem record_append (last : Nat → Option α) (place : Nat) (front back : List α) :
    record (record last place front) (place + front.length) back = record last place (front ++ back) := by
  funext i
  simp only [record, List.length_append]
  by_cases hback : place + front.length ≤ i ∧ i < place + front.length + back.length
  · rw [if_pos hback, if_pos (by omega), List.getElem?_append_right (by omega)]
    congr 1
    omega
  · rw [if_neg hback]
    by_cases hfront : place ≤ i ∧ i < place + front.length
    · rw [if_pos hfront, if_pos (by omega), List.getElem?_append_left (by omega)]
    · rw [if_neg hfront, if_neg (by omega)]

/-- What was written last stands where it was written, when every byte last written stands in the contents. -/
theorem drop_of_record {last : Nat → Option α} {place : Nat} {piece contents : List α}
    (h : ∀ i x, record last place piece i = some x → contents[i]? = some x) :
    contents.drop place = piece ++ contents.drop (place + piece.length) := by
  refine List.ext_getElem? ?_
  intro k
  rw [List.getElem?_drop]
  rcases Nat.lt_or_ge k piece.length with hlt | hge
  · rw [List.getElem?_append_left hlt, List.getElem?_eq_getElem hlt]
    refine h _ _ ?_
    rw [record, if_pos (by omega), Nat.add_sub_cancel_left, List.getElem?_eq_getElem hlt]
  · rw [List.getElem?_append_right hge, List.getElem?_drop]
    congr 1
    omega


/-! ## What is held for its place -/

/-- What was put at a place is what stands there: what is held was last put behind the position of the file, and
what was put at any other place is in the file. -/
structure Held (file : Reading.File α) (buffer : List α) (last : Nat → Option α) : Prop where
  buffered : ∀ k x, buffer[k]? = some x → last (file.pos + k) = some x
  stored : ∀ i x, last i = some x → file.contents[i]? = some x ∨ (file.pos ≤ i ∧ i < file.pos + buffer.length)

section Held

variable {file : Reading.File α} {buffer out rest : List α} {last : Nat → Option α}

/-- Nothing was put anywhere, and nothing is held. -/
theorem held_new (file : Reading.File α) : Held file [] fun _ => none where
  buffered k x h := by simp at h
  stored i x h := nomatch h

/-- When nothing is held, the file may move. -/
theorem Held.move (h : Held file [] last) (place : Nat) : Held { file with pos := place } [] last where
  buffered k x hk := by simp at hk
  stored i x hi := by
    rcases h.stored i x hi with hin | ⟨hle, hlt⟩
    · exact Or.inl hin
    · rw [List.length_nil] at hlt
      omega

/-- Holding a piece back puts it behind what is held. -/
theorem Held.hold (h : Held file buffer last) (piece : List α) :
    Held file (buffer ++ piece) (record last (file.pos + buffer.length) piece) where
  buffered k x hk := by
    unfold record
    rcases Nat.lt_or_ge k buffer.length with hlt | hge
    · rw [List.getElem?_append_left hlt] at hk
      rw [if_neg (by omega)]
      exact h.buffered k x hk
    · rw [List.getElem?_append_right hge] at hk
      have hin := (List.getElem?_eq_some_iff.mp hk).1
      rw [if_pos (by omega), ← hk]
      congr 1
      omega
  stored i x hi := by
    rw [List.length_append]
    rw [record] at hi
    split at hi
    · exact Or.inr (by omega)
    · rcases h.stored i x hi with hin | ⟨hle, hlt⟩
      · exact Or.inl hin
      · exact Or.inr (by omega)

/-- Writing out the front of what is held puts nothing new. -/
theorem Held.writeOut [Zero α] (h : Held file (out ++ rest) last) : Held (Sink.put file out) rest last where
  buffered k x hk := by
    have hin := h.buffered (out.length + k) x (by rwa [List.getElem?_append_right (Nat.le_add_right _ _),
      Nat.add_sub_cancel_left])
    rwa [← Nat.add_assoc] at hin
  stored i x hi := by
    have hpos : (Sink.put file out).pos = file.pos + out.length := rfl
    have hcontents : (Sink.put file out).contents = patch 0 file.contents file.pos out := rfl
    rw [hpos, hcontents]
    by_cases hin : file.pos ≤ i ∧ i < file.pos + out.length
    · -- what is written out is what was put there
      left
      have hk : i - file.pos < out.length := by omega
      have hput := h.buffered (i - file.pos) out[i - file.pos] (by rw [List.getElem?_append_left hk,
        List.getElem?_eq_getElem hk])
      rw [Nat.add_sub_cancel' hin.1, hi] at hput
      rw [getElem?_patch_of_mem 0 _ hin.1 hin.2, List.getElem?_eq_getElem hk, hput]
    · rcases h.stored i x hi with hstands | ⟨hle, hlt⟩
      · exact Or.inl (getElem?_patch_of_not_mem 0 hstands hin)
      · rw [List.length_append] at hlt
        exact Or.inr (by omega)

/-- What was put is lost when what is held is dropped, unless that stands in the file already. -/
theorem Held.dropped_iff (h : Held file buffer last) :
    (∀ i x, last i = some x → file.contents[i]? = some x) ↔
    (file.contents.drop file.pos).take buffer.length = buffer := by
  constructor
  · intro hall
    refine List.ext_getElem? ?_
    intro k
    rcases Nat.lt_or_ge k buffer.length with hlt | hge
    · have hk := List.getElem?_eq_getElem hlt
      rw [List.getElem?_take_of_lt hlt, List.getElem?_drop, hk]
      exact hall _ _ (h.buffered k _ hk)
    · rw [List.getElem?_eq_none hge, List.getElem?_eq_none]
      rw [List.length_take]
      omega
  · intro hstands i x hi
    rcases h.stored i x hi with hin | ⟨hle, hlt⟩
    · exact hin
    · have hk : i - file.pos < buffer.length := by omega
      have hput := h.buffered _ _ (List.getElem?_eq_getElem hk)
      rw [Nat.add_sub_cancel' hle, hi] at hput
      have hget := congrArg (fun xs => xs[i - file.pos]?) hstands
      simp only [List.getElem?_take_of_lt hk, List.getElem?_drop, Nat.add_sub_cancel' hle,
        List.getElem?_eq_getElem hk] at hget
      rw [hget, hput]

end Held

/-! ## What the operations leave -/

section Operations

variable [Zero α] {inner inner' : Writer.BufWriter (Reading.File α) α} {given : List α} {done : Bool}
  {last : Nat → Option α}

/-- A call that the device refuses nothing of leaves the writer behind what it is given. -/
theorem place_passes (hpasses : inner.Passes given done inner') (hkept : inner'.refused = inner.refused) :
    place inner' = place inner + given.length := by
  obtain ⟨out, hsink, hparts⟩ := hpasses.kept hkept
  have hlen := congrArg List.length hparts
  rw [List.length_append, List.length_append] at hlen
  have hpos : inner'.sink.pos = inner.sink.pos + out.length := by rw [hsink]; rfl
  rw [place, place, hpos]
  omega

/-- A call that the device refuses nothing of puts what it is given where the writer is. -/
theorem Held.passes (h : Held inner.sink inner.buffer last) (hpasses : inner.Passes given done inner')
    (hkept : inner'.refused = inner.refused) : Held inner'.sink inner'.buffer (record last (place inner) given) := by
  obtain ⟨out, hsink, hparts⟩ := hpasses.kept hkept
  have hheld := h.hold given
  rw [hparts] at hheld
  rw [hsink]
  exact hheld.writeOut

namespace BufWriter

variable {w w' : BufWriter α} {target : Option Nat} {grant : SeekGrant} {granted : Bool}

/-- What completing a seek does: there was none to make; or what is held could not be handed on, and the seek stays
begun; or it was, and the seek is made, or given up. -/
theorem complete_cases (w : BufWriter α) (granted : Bool) :
    (w.seeking = none ∧ w.complete granted = (true, w)) ∨
      ∃ target inner, w.seeking = some target ∧ w.Passes [] w.flushBuf.1 inner ∧
        ((w.flushBuf.1 = false ∧ w.complete granted = (false, ⟨inner, some target⟩)) ∨
          (w.flushBuf.1 = true ∧ inner.buffer = [] ∧
            w.complete granted = (granted, ⟨sought inner target granted, none⟩))) := by
  rcases hseeking : w.seeking with _ | target
  · exact Or.inl ⟨rfl, by simp only [complete, hseeking]⟩
  · refine Or.inr ⟨target, w.flushBuf.2, rfl, w.passes_flushBuf, ?_⟩
    rcases hflush : w.flushBuf with ⟨_ | _, inner⟩
    · exact Or.inl ⟨rfl, by simp only [complete, hseeking, hflush]⟩
    · exact Or.inr ⟨rfl, Writer.BufWriter.buffer_flushBuf hflush, by simp only [complete, hseeking, hflush]⟩

/-- Completing a seek gives back nothing that was refused. -/
theorem refused_complete (w : BufWriter α) (granted : Bool) : w.refused ≤ (w.complete granted).2.refused := by
  rcases w.complete_cases granted with ⟨-, heq⟩ | ⟨target, inner, -, hpasses,
    ⟨-, heq⟩ | ⟨-, -, heq⟩⟩ <;> rw [heq]
  · exact hpasses.refused_le
  · exact Nat.le_trans hpasses.refused_le (Nat.le_of_eq (sought_keeps inner target granted).2.2.2.symm)

/-- A seek gives back nothing that was refused. -/
theorem refused_seek (w : BufWriter α) (target : Option Nat) (grant : SeekGrant) :
    w.refused ≤ (w.seek target grant).2.refused := by
  have hleftover := w.refused_complete grant.leftover
  unfold seek
  rcases hcomplete : w.complete grant.leftover with ⟨_ | _, mid⟩ <;> rw [hcomplete] at hleftover
  · exact hleftover
  · exact Nat.le_trans hleftover (refused_complete ⟨mid.toBufWriter, some target⟩ grant.asked)

/-- A seek that succeeds leaves nothing held, and the writer at the place asked for. -/
theorem seek_ok (h : w.seek target grant = (true, w')) :
    w'.buffer = [] ∧ ∀ asked, target = some asked → place w'.toBufWriter = asked := by
  unfold seek at h
  rcases hcomplete : w.complete grant.leftover with ⟨_ | _, mid⟩ <;> rw [hcomplete] at h
  · cases h
  · replace h : complete ⟨mid.toBufWriter, some target⟩ grant.asked = (true, w') := h
    rcases complete_cases ⟨mid.toBufWriter, some target⟩ grant.asked with
      ⟨hnone, -⟩ | ⟨target', inner, heq, -, ⟨-, hresult⟩ | ⟨-, hnil, hresult⟩⟩
    · cases hnone
    · rw [hresult] at h
      cases h
    · cases heq
      rw [hresult] at h
      obtain ⟨hgranted, rfl⟩ := Prod.mk.inj h
      rw [hgranted]
      refine ⟨hnil, ?_⟩
      rintro asked rfl
      simp only [place, sought, if_true, hnil, List.length_nil, Nat.add_zero, Option.getD_some]

/-- When no seek is left over, the one asked for is made at once. -/
theorem seek_eq (hseeking : w.seeking = none) (target : Option Nat) (grant : SeekGrant) :
    w.seek target grant = complete ⟨w.toBufWriter, some target⟩ grant.asked := by
  have hcomplete : w.complete grant.leftover = (true, w) := by simp only [complete, hseeking]
  simp only [seek, hcomplete]

/-- A seek of a writer that has nothing to report and no seek left over, when the device refuses nothing: all that
is held is handed on, and the seek is made or refused. -/
theorem seek_of_clear (hfailed : w.failed = false) (hseeking : w.seeking = none)
    (hkept : (w.seek target grant).2.refused = w.refused) :
    ∃ inner, w.Passes [] true inner ∧ inner.buffer = [] ∧ inner.failed = false ∧ inner.refused = w.refused ∧
      w.seek target grant = (grant.asked, ⟨sought inner target grant.asked, none⟩) := by
  rw [seek_eq hseeking] at hkept ⊢
  rcases complete_cases ⟨w.toBufWriter, some target⟩ grant.asked with
    ⟨hnone, -⟩ | ⟨target', inner, heq, hpasses, hcase⟩
  · cases hnone
  · cases heq
    have hsame : inner.refused = w.refused := by
      rcases hcase with ⟨-, hresult⟩ | ⟨-, -, hresult⟩ <;> rw [hresult] at hkept
      · exact hkept
      · exact (sought_keeps inner target grant.asked).2.2.2.symm.trans hkept
    obtain ⟨hdone, hclear⟩ := hpasses.sound hfailed hsame
    rcases hcase with ⟨hfalse, -⟩ | ⟨-, hnil, hresult⟩
    · rw [hdone] at hfalse
      cases hfalse
    · rw [hdone] at hpasses
      exact ⟨inner, hpasses, hnil, hclear, hsame, hresult⟩

/-- A device that has room for everything refuses nothing of what a seek hands on. -/
theorem refused_seek_of_rooms (hseeking : w.seeking = none) (hrooms : w.file.device.rooms = []) (target : Option Nat)
    (grant : SeekGrant) : (w.seek target grant).2.refused = w.refused := by
  have hdrain : w.flushBuf.2.refused = w.refused := Writer.BufWriter.refused_drain _ hrooms
  rcases hflush : w.flushBuf with ⟨_ | _, inner⟩ <;> rw [hflush] at hdrain
  · simpa only [seek_eq hseeking, complete, hflush] using hdrain
  · simpa only [seek_eq hseeking, complete, hflush, (sought_keeps inner target grant.asked).2.2.2] using hdrain

section Clear

variable (hfailed : w.failed = false) (hseeking : w.seeking = none) (hkept : (w.seek target grant).2.refused = w.refused)
include hfailed hseeking hkept

/-- Where a seek leaves a writer that has nothing to report and no seek left over, when the device refuses no
write: at the place asked for, or where it was when the seek is refused. -/
theorem place_seek : place (w.seek target grant).2.toBufWriter =
    if grant.asked then target.getD (place w.toBufWriter) else place w.toBufWriter := by
  obtain ⟨inner, hpasses, hnil, -, hsame, heq⟩ := seek_of_clear hfailed hseeking hkept
  have hplace := place_passes hpasses hsame
  rw [List.length_nil, Nat.add_zero] at hplace
  rw [heq, ← hplace]
  exact place_sought hnil target grant.asked

/-- A seek of such a writer puts nothing new and leaves nothing held. -/
theorem held_seek (h : Held w.sink w.buffer last) :
    Held (w.seek target grant).2.sink (w.seek target grant).2.buffer last ∧ (w.seek target grant).2.buffer = [] := by
  obtain ⟨inner, hpasses, hnil, -, hsame, heq⟩ := seek_of_clear hfailed hseeking hkept
  have hheld := h.passes hpasses hsame
  rw [record_nil, hnil] at hheld
  have hbuffer := (sought_keeps inner target grant.asked).2.1.trans hnil
  rw [heq]
  refine ⟨?_, hbuffer⟩
  rw [hbuffer]
  cases grant.asked with
  | false => exact hheld
  | true => exact hheld.move _

end Clear

end BufWriter

end Operations

end Overwriting
