import Mathlib

/-!
# Writing a file through a buffer

How tokio writes a file, in three layers. The device puts what it takes of a write into the file and may refuse the
rest (`Device`). An `fs::File` takes a write at once and carries it out in the background: a later call reports
that the device refused some of it, and what was refused is lost (`File`). An `io::BufWriter` holds small pieces
back and hands them to its file together (`BufWriter`). Of what a call is given and what was held before it, the
device takes the front, refuses a part and the rest is held (`Passes`); a call that succeeds and leaves no error to
report has lost nothing.
-/

namespace Writer

variable {σ α : Type}

/-- What a file holds, and how elements are put into it: one after another, so that two pieces are put as one. -/
class Sink (σ : Type) (α : outParam Type) where
  put : σ → List α → σ
  put_nil : ∀ s, put s [] = s
  put_append : ∀ s front back, put s (front ++ back) = put (put s front) back

open Sink

/-- A file that is appended to. -/
instance : Sink (List α) α where
  put written piece := written ++ piece
  put_nil := List.append_nil
  put_append written front back := (List.append_assoc written front back).symm

/-! ## The layers -/

/-- How much of one write a device has room for: all of it, or at most so many elements. -/
abbrev Room : Type := Option Nat

/-- The front of a piece that there is room for. -/
def fitting (room : Room) (piece : List α) : List α :=
  match room with
  | none => piece
  | some n => piece.take n

/-- A file on a device: what it holds, how much room there is for each of the writes to come (for all of any behind
the last), and how many elements were refused. -/
structure Device (σ : Type) where
  sink : σ
  rooms : List Room
  refused : Nat
  deriving DecidableEq, Repr

/-- `write_all` of the operating system's file: puts what there is room for, and tells whether that was all. -/
def Device.write [Sink σ α] (device : Device σ) (piece : List α) : Bool × Device σ :=
  let taken := fitting (device.rooms.headD none) piece
  (decide (taken.length = piece.length),
    { sink := put device.sink taken
      rooms := device.rooms.tail
      refused := device.refused + (piece.length - taken.length) })

/-- `fs::File`: the file on the device, and whether a write failed since an error was last reported. -/
structure File (σ : Type) where
  device : Device σ
  failed : Bool
  deriving DecidableEq, Repr

/-- How many elements an `fs::File` takes in one write at most. -/
def maxBufSize : Nat := 2 ^ 21

/-- `poll_write` of an `fs::File`. A failure before it is reported instead, and nothing is taken. Otherwise the
front of the piece is taken, whatever becomes of it: the device is written to in the background, which is over
before the next call does anything, so that it is done here at once. -/
def File.write [Sink σ α] (file : File σ) (piece : List α) : Option Nat × File σ :=
  if file.failed then (none, { file with failed := false })
  else
    let result := file.device.write (piece.take maxBufSize)
    (some (min piece.length maxBufSize), { device := result.2, failed := !result.1 })

/-- `poll_flush` of an `fs::File`: waits for the write in the background, and reports a failure. -/
def File.flush (file : File σ) : Bool × File σ := (!file.failed, { file with failed := false })

/-- `io::BufWriter`: its file, what it was given and has not handed on, and how much it holds at most. -/
structure BufWriter (σ α : Type) where
  file : File σ
  buffer : List α
  capacity : Nat
  deriving DecidableEq, Repr

namespace BufWriter

/-- What the file holds. -/
abbrev sink (w : BufWriter σ α) : σ := w.file.device.sink

/-- Whether a write failed and this was not reported yet. -/
abbrev failed (w : BufWriter σ α) : Bool := w.file.failed

/-- How many elements the device refused. -/
abbrev refused (w : BufWriter σ α) : Nat := w.file.device.refused

/-- The writer on a device that has so much room for the writes to come. -/
def on (w : BufWriter σ α) (rooms : List Room) : BufWriter σ α :=
  { w with file := { w.file with device := { w.file.device with rooms } } }

variable [Sink σ α]

/-- Hands on what is held, in at most so many writes. -/
def drain : Nat → BufWriter σ α → Bool × BufWriter σ α
  | 0, w => (true, w)
  | fuel + 1, w =>
    if w.buffer = [] then (true, w)
    else
      match w.file.write w.buffer with
      | (none, file) => (false, { w with file })
      | (some n, file) => drain fuel { w with file, buffer := w.buffer.drop n }

/-- `flush_buf`: hands on all that is held, and stops at the first error; every write takes an element, so that as
many writes as there are elements are enough. -/
def flushBuf (w : BufWriter σ α) : Bool × BufWriter σ α := w.drain w.buffer.length

/-- `poll_write`: what is held is handed on first if the piece does not fit behind it, and a piece as large as the
buffer goes past it. -/
def write (w : BufWriter σ α) (piece : List α) : Option Nat × BufWriter σ α :=
  match if w.capacity < w.buffer.length + piece.length then w.flushBuf else (true, w) with
  | (false, w) => (none, w)
  | (true, w) =>
    if w.capacity ≤ piece.length then
      match w.file.write piece with
      | (taken, file) => (taken, { w with file })
    else (some piece.length, { w with buffer := w.buffer ++ piece })

/-- Writes of what is left of a piece, at most so many of them. -/
def writeAllFrom : Nat → BufWriter σ α → List α → Bool × BufWriter σ α
  | 0, w, _ => (true, w)
  | fuel + 1, w, piece =>
    if piece = [] then (true, w)
    else
      match w.write piece with
      | (none, w) => (false, w)
      | (some n, w) => writeAllFrom fuel w (piece.drop n)

/-- `write_all`: writes until all of the piece is taken; every write takes an element of it. -/
def writeAll (w : BufWriter σ α) (piece : List α) : Bool × BufWriter σ α := writeAllFrom piece.length w piece

/-- Pieces written one after the other, up to the first that fails. -/
def writePieces (w : BufWriter σ α) : List (List α) → Bool × BufWriter σ α
  | [] => (true, w)
  | piece :: pieces =>
    match w.writeAll piece with
    | (false, w) => (false, w)
    | (true, w) => w.writePieces pieces

/-- `poll_flush`: hands on all that is held and flushes the file. -/
def flush (w : BufWriter σ α) : Bool × BufWriter σ α :=
  match w.flushBuf with
  | (false, w) => (false, w)
  | (true, w) => (w.file.flush.1, { w with file := w.file.flush.2 })

end BufWriter

/-! ## What a write of a file does -/

/-- A file without a failure to report has nothing to flush. -/
theorem File.flush_of_not_failed {file : File σ} (h : file.failed = false) : file.flush = (true, file) := by
  obtain ⟨device, failed⟩ := file
  cases h
  rfl

/-- A flush reports a failure. -/
theorem File.flush_of_failed {file : File σ} (h : file.failed = true) :
    file.flush = (false, { file with failed := false }) := by
  rw [File.flush, h]
  rfl

variable [Sink σ α]

/-- What there is room for is a front of the piece. -/
theorem exists_refused (room : Room) (piece : List α) : ∃ gap, piece = fitting room piece ++ gap := by
  cases room with
  | none => exact ⟨[], (List.append_nil piece).symm⟩
  | some n => exact ⟨piece.drop n, (List.take_append_drop n piece).symm⟩

/-- A file with a failure to report takes nothing and reports it. -/
theorem File.write_of_failed {file : File σ} (h : file.failed = true) (piece : List α) :
    file.write piece = (none, { file with failed := false }) := by
  rw [File.write, if_pos h]

/-- A file without a failure to report takes the front of a piece: the device takes the front of that and refuses
the rest, and there is a failure to report exactly when it refused any. -/
theorem File.write_of_not_failed {file : File σ} (h : file.failed = false) (piece : List α) :
    ∃ out gap file', file.write piece = (some (min piece.length maxBufSize), file') ∧
      piece.take maxBufSize = out ++ gap ∧ file'.device.sink = put file.device.sink out ∧
      file'.device.refused = file.device.refused + gap.length ∧ (file'.failed = false ↔ gap = []) := by
  obtain ⟨gap, hgap⟩ := exists_refused (file.device.rooms.headD none) (piece.take maxBufSize)
  have hlen := congrArg List.length hgap
  rw [List.length_append] at hlen
  refine ⟨_, gap, _, by rw [File.write, h]; rfl, hgap, rfl, ?_, ?_⟩
  · simp only [Device.write]
    omega
  · simp only [Device.write, Bool.not_eq_false', decide_eq_true_eq, ← List.length_eq_zero_iff]
    omega

/-! ## What a call does -/

namespace BufWriter

variable {w w' w'' : BufWriter σ α} {given given' : List α} {done done' : Bool}

/-- Of what was held and what was given, the device takes the front and refuses a part behind it, and the rest is
held; while there is a failure to report, the device gets nothing. A call that succeeds, with no failure to report
after it, had none before and lost nothing; and one without a failure before it succeeds, with none after it,
unless the device refuses some. -/
structure Passes (w : BufWriter σ α) (given : List α) (done : Bool) (w' : BufWriter σ α) : Prop where
  parts : ∃ out gap, w'.sink = put w.sink out ∧ w.buffer ++ given = out ++ gap ++ w'.buffer ∧
    w'.refused = w.refused + gap.length ∧ (w.failed = true → out = [] ∧ gap = [])
  capacity : w'.capacity = w.capacity
  clear : done = true → w'.failed = false → w.failed = false ∧ w'.refused = w.refused
  sound : w.failed = false → w'.refused = w.refused → done = true ∧ w'.failed = false

/-- Nothing given, nothing done. -/
theorem Passes.refl (w : BufWriter σ α) : w.Passes [] true w where
  parts := ⟨[], [], (put_nil _).symm, by simp, rfl, fun _ => ⟨rfl, rfl⟩⟩
  capacity := rfl
  clear _ h := ⟨h, rfl⟩
  sound h _ := ⟨rfl, h⟩

/-- Nothing that was refused is given back. -/
theorem Passes.refused_le (h : w.Passes given done w') : w.refused ≤ w'.refused := by
  obtain ⟨out, gap, -, -, hrefused, -⟩ := h.parts
  omega

/-- When nothing is refused, what was held and given is what the device took and what is held. -/
theorem Passes.kept (h : w.Passes given done w') (hkept : w'.refused = w.refused) :
    ∃ out, w'.sink = put w.sink out ∧ w.buffer ++ given = out ++ w'.buffer := by
  obtain ⟨out, gap, hsink, hparts, hrefused, -⟩ := h.parts
  have hgap : gap = [] := List.length_eq_zero_iff.mp (by omega)
  rw [hgap, List.append_nil] at hparts
  exact ⟨out, hsink, hparts⟩

/-- A call after one that succeeds. -/
theorem Passes.trans (h : w.Passes given true w') (h' : w'.Passes given' done w'') :
    w.Passes (given ++ given') done w'' where
  parts := by
    obtain ⟨out, gap, hsink, hparts, hrefused, hstuck⟩ := h.parts
    obtain ⟨out', gap', hsink', hparts', hrefused', hstuck'⟩ := h'.parts
    refine ⟨out ++ out', gap ++ gap', ?_, ?_, ?_, fun hfailed => ?_⟩
    · rw [hsink', hsink, put_append]
    · rw [← List.append_assoc, hparts, List.append_assoc _ w'.buffer, hparts']
      by_cases hgap : gap = []
      · simp [hgap]
      · -- the device gets no more before the failure is reported
        have hfailed : w'.failed = true := by
          by_contra hnot
          have hlen := (h.clear rfl (Bool.not_eq_true _ ▸ hnot)).2
          exact hgap (List.length_eq_zero_iff.mp (by omega))
        obtain ⟨rfl, rfl⟩ := hstuck' hfailed
        simp
    · rw [hrefused', hrefused, List.length_append, Nat.add_assoc]
    · obtain ⟨rfl, rfl⟩ := hstuck hfailed
      have hfailed' : w'.failed = true := by
        by_contra hnot
        have hclear := (h.clear rfl (Bool.not_eq_true _ ▸ hnot)).1
        rw [hclear] at hfailed
        cases hfailed
      obtain ⟨rfl, rfl⟩ := hstuck' hfailed'
      exact ⟨rfl, rfl⟩
  capacity := h'.capacity.trans h.capacity
  clear hdone hclear := by
    obtain ⟨hfailed, hrefused⟩ := h'.clear hdone hclear
    obtain ⟨hfailed', hrefused'⟩ := h.clear rfl hfailed
    exact ⟨hfailed', hrefused.trans hrefused'⟩
  sound hfailed hrefused := by
    have hle := h.refused_le
    have hle' := h'.refused_le
    exact h'.sound (h.sound hfailed (by omega)).2 (by omega)

/-- An error is reported instead of handing anything on. -/
theorem passes_reported (h : w.failed = true) : w.Passes [] false { w with file := { w.file with failed := false } } where
  parts := ⟨[], [], (put_nil _).symm, by simp, rfl, fun _ => ⟨rfl, rfl⟩⟩
  capacity := rfl
  clear hdone := by cases hdone
  sound hfailed := by
    rw [hfailed] at h
    cases h

/-- A file that takes the front of what was held and given, the rest of which is held. -/
theorem passes_of_write {piece rest : List α} {file : File σ} {n : Nat} (hfailed : w.failed = false)
    (hwrite : w.file.write piece = (some n, file)) (hpiece : w.buffer ++ given = piece.take n ++ rest) :
    w.Passes given true { w with file, buffer := rest } := by
  obtain ⟨out, gap, file', heq, hparts, hsink, hrefused, hclear⟩ := w.file.write_of_not_failed hfailed piece
  rw [hwrite] at heq
  cases heq
  have htake : piece.take (min piece.length maxBufSize) = piece.take maxBufSize := by
    rw [Nat.min_comm, ← List.take_eq_take_min]
  rw [htake, hparts] at hpiece
  refine ⟨⟨out, gap, hsink, hpiece, hrefused, fun h => ?_⟩, rfl, fun _ h => ⟨hfailed, ?_⟩,
    fun _ h => ⟨rfl, ?_⟩⟩
  · rw [hfailed] at h
    cases h
  · simp only [refused, hrefused, hclear.mp h, List.length_nil, Nat.add_zero]
  · simp only [refused, hrefused] at h
    exact hclear.mpr (List.length_eq_zero_iff.mp (by omega))

/-- Handing on what is held. -/
theorem passes_drain (fuel : Nat) (w : BufWriter σ α) : w.Passes [] (w.drain fuel).1 (w.drain fuel).2 := by
  induction fuel generalizing w with
  | zero => exact .refl w
  | succ fuel ih =>
    unfold drain
    split
    · exact .refl w
    · by_cases hfailed : w.failed = true
      · rw [w.file.write_of_failed hfailed]
        exact passes_reported hfailed
      · obtain ⟨-, -, file, hwrite, -⟩ := w.file.write_of_not_failed (Bool.not_eq_true _ ▸ hfailed) w.buffer
        rw [hwrite]
        refine (@passes_of_write _ _ _ w [] _ _ _ _ (Bool.not_eq_true _ ▸ hfailed) hwrite ?_).trans (ih _)
        rw [List.append_nil, List.take_append_drop]

/-- Handing on all that is held, when it succeeds, leaves nothing held. -/
theorem buffer_drain {fuel : Nat} (hfuel : w.buffer.length ≤ fuel) (hok : w.drain fuel = (true, w')) :
    w'.buffer = [] := by
  induction fuel generalizing w with
  | zero =>
    cases hok
    exact List.length_eq_zero_iff.mp (Nat.le_zero.mp hfuel)
  | succ fuel ih =>
    unfold drain at hok
    split at hok
    · rename_i hnil
      cases hok
      exact hnil
    · rename_i hcons
      have hpos := List.length_pos_iff.mpr hcons
      by_cases hfailed : w.failed = true
      · rw [w.file.write_of_failed hfailed] at hok
        cases hok
      · obtain ⟨-, -, file, hwrite, -⟩ := w.file.write_of_not_failed (Bool.not_eq_true _ ▸ hfailed) w.buffer
        rw [hwrite] at hok
        refine ih ?_ hok
        simp only [List.length_drop, maxBufSize]
        omega

/-- A device that has room for everything refuses nothing of what is handed on. -/
theorem refused_drain (fuel : Nat) (hrooms : w.file.device.rooms = []) : (w.drain fuel).2.refused = w.refused := by
  induction fuel generalizing w with
  | zero => rfl
  | succ fuel ih =>
    unfold drain
    split
    · rfl
    · by_cases hfailed : w.failed = true
      · rw [w.file.write_of_failed hfailed]
      · have hwrite : w.file.write w.buffer = (some (min w.buffer.length maxBufSize),
            { device := (w.file.device.write (w.buffer.take maxBufSize)).2
              failed := !(w.file.device.write (w.buffer.take maxBufSize)).1 }) := by
          rw [File.write, if_neg hfailed]
        rw [hwrite]
        refine (ih ?_).trans ?_
        · simp only [Device.write, hrooms, List.tail_nil]
        · simp only [refused, Device.write, hrooms, List.headD_nil, fitting, Nat.sub_self, Nat.add_zero]

theorem passes_flushBuf (w : BufWriter σ α) : w.Passes [] w.flushBuf.1 w.flushBuf.2 := w.passes_drain _

/-- `flush_buf`, when it succeeds, leaves nothing held. -/
theorem buffer_flushBuf (hok : w.flushBuf = (true, w')) : w'.buffer = [] := buffer_drain (Nat.le_refl _) hok

/-- A write past an empty buffer, or into the buffer. -/
theorem passes_write (w : BufWriter σ α) (piece : List α) :
    w.Passes (piece.take ((w.write piece).1.getD 0)) (w.write piece).1.isSome (w.write piece).2 := by
  unfold write
  -- what is held is handed on, if the piece does not fit
  obtain ⟨done, mid, hmid⟩ : ∃ done mid,
      (if w.capacity < w.buffer.length + piece.length then w.flushBuf else (true, w)) = (done, mid) := ⟨_, _, rfl⟩
  have hflushed : w.Passes [] done mid ∧ (done = true → mid.capacity ≤ piece.length → mid.buffer = []) := by
    split at hmid
    · have hpasses := w.passes_flushBuf
      rw [hmid] at hpasses
      refine ⟨hpasses, ?_⟩
      rintro rfl -
      exact buffer_flushBuf hmid
    · cases hmid
      exact ⟨.refl w, fun _ hle => List.length_eq_zero_iff.mp (by omega)⟩
  obtain ⟨hpasses, hempty⟩ := hflushed
  rw [hmid]
  cases done with
  | false => exact hpasses
  | true =>
    simp only
    split
    · rename_i hle
      have hnil := hempty rfl hle
      by_cases hfailed : mid.failed = true
      · rw [mid.file.write_of_failed hfailed]
        exact hpasses.trans (passes_reported hfailed)
      · obtain ⟨-, -, file, hwrite, -⟩ := mid.file.write_of_not_failed (Bool.not_eq_true _ ▸ hfailed) piece
        rw [hwrite]
        refine hpasses.trans ?_
        have hput := @passes_of_write _ _ _ mid (piece.take (min piece.length maxBufSize)) _ mid.buffer _ _
          (Bool.not_eq_true _ ▸ hfailed) hwrite (by rw [hnil, List.append_nil, List.nil_append])
        exact hput
    · refine hpasses.trans ⟨⟨[], [], (put_nil _).symm, ?_, rfl, fun _ => ⟨rfl, rfl⟩⟩, rfl,
        fun _ h => ⟨h, rfl⟩, fun h _ => ⟨rfl, h⟩⟩
      simp only [Option.getD_some, List.take_length, List.nil_append]

/-- A write takes no more than the piece, and some of one that is not empty. -/
theorem write_taken {piece : List α} {n : Nat} (hpiece : piece ≠ []) (hwrite : w.write piece = (some n, w')) :
    0 < n ∧ n ≤ piece.length := by
  have hpos := List.length_pos_iff.mpr hpiece
  unfold write at hwrite
  split at hwrite
  · cases hwrite
  · rename_i mid _
    split at hwrite
    · by_cases hfailed : mid.failed = true
      · rw [mid.file.write_of_failed hfailed] at hwrite
        cases hwrite
      · obtain ⟨-, -, file, heq, -⟩ := mid.file.write_of_not_failed (Bool.not_eq_true _ ▸ hfailed) piece
        rw [heq] at hwrite
        cases hwrite
        simp only [maxBufSize]
        omega
    · cases hwrite
      exact ⟨hpos, Nat.le_refl _⟩

/-- Writing what is left of a piece gives a front of it, and all of it when it succeeds. -/
theorem passes_writeAllFrom {fuel : Nat} {piece : List α} (hfuel : piece.length ≤ fuel) (w : BufWriter σ α) :
    ∃ n ≤ piece.length, w.Passes (piece.take n) (writeAllFrom fuel w piece).1 (writeAllFrom fuel w piece).2 ∧
      ((writeAllFrom fuel w piece).1 = true → n = piece.length) := by
  induction fuel generalizing w piece with
  | zero =>
    have hnil := List.length_eq_zero_iff.mp (Nat.le_zero.mp hfuel)
    subst hnil
    exact ⟨0, Nat.le_refl 0, .refl w, fun _ => rfl⟩
  | succ fuel ih =>
    unfold writeAllFrom
    split
    · rename_i hnil
      subst hnil
      exact ⟨0, Nat.le_refl 0, .refl w, fun _ => rfl⟩
    · rename_i hpiece
      have hpasses := w.passes_write piece
      rcases hwrite : w.write piece with ⟨_ | n, mid⟩ <;> rw [hwrite] at hpasses
      · exact ⟨0, Nat.zero_le _, hpasses, fun h => by cases h⟩
      · obtain ⟨hpos, hle⟩ := write_taken hpiece hwrite
        have hfuel' : (piece.drop n).length ≤ fuel := by
          rw [List.length_drop]
          omega
        obtain ⟨m, hm, hrest, hall⟩ := ih hfuel' mid
        rw [List.length_drop] at hm hall
        have hboth := hpasses.trans hrest
        rw [Option.getD_some, ← List.take_add] at hboth
        exact ⟨n + m, by omega, hboth, fun h => by have := hall h; omega⟩

/-- `write_all` gives a front of the piece, and all of it when it succeeds. -/
theorem passes_writeAll (w : BufWriter σ α) (piece : List α) : ∃ n ≤ piece.length,
    w.Passes (piece.take n) (w.writeAll piece).1 (w.writeAll piece).2 ∧
      ((w.writeAll piece).1 = true → n = piece.length) :=
  passes_writeAllFrom (Nat.le_refl _) w

/-- Writing pieces gives a front of them all, and all of them when it succeeds. -/
theorem passes_writePieces (w : BufWriter σ α) (pieces : List (List α)) : ∃ n ≤ pieces.flatten.length,
    w.Passes (pieces.flatten.take n) (w.writePieces pieces).1 (w.writePieces pieces).2 ∧
      ((w.writePieces pieces).1 = true → n = pieces.flatten.length) := by
  induction pieces generalizing w with
  | nil => exact ⟨0, Nat.le_refl 0, .refl w, fun _ => rfl⟩
  | cons piece pieces ih =>
    obtain ⟨n, hn, hpasses, hall⟩ := w.passes_writeAll piece
    rw [List.flatten_cons, List.length_append]
    unfold writePieces
    rcases hwrite : w.writeAll piece with ⟨_ | _, mid⟩ <;> rw [hwrite] at hpasses hall
    · refine ⟨n, Nat.le_add_right_of_le hn, ?_, fun h => by cases h⟩
      rwa [List.take_append_of_le_length hn]
    · obtain ⟨m, hm, hrest, hall'⟩ := ih mid
      have hboth := hpasses.trans hrest
      rw [hall rfl, List.take_length, ← List.take_length_add_append] at hboth
      exact ⟨piece.length + m, Nat.add_le_add_left hm _, hboth, fun h => by rw [hall' h]⟩

/-- A flush hands on what is held; when it succeeds, nothing was refused, in it or before it without a report, and
nothing is held. -/
theorem passes_flush (w : BufWriter σ α) : w.Passes [] w.flush.1 w.flush.2 ∧
    (w.flush.1 = true → w.flush.2.buffer = [] ∧ w.flush.2.failed = false) := by
  have hpasses := w.passes_flushBuf
  unfold flush
  rcases hflush : w.flushBuf with ⟨_ | _, mid⟩ <;> rw [hflush] at hpasses
  · exact ⟨hpasses, fun h => by cases h⟩
  · have hnil := buffer_flushBuf hflush
    rcases hfailed : mid.failed with _ | _
    · simp only [mid.file.flush_of_not_failed hfailed]
      exact ⟨hpasses, fun _ => ⟨hnil, hfailed⟩⟩
    · simp only [mid.file.flush_of_failed hfailed]
      exact ⟨hpasses.trans (passes_reported hfailed), fun h => by cases h⟩

end BufWriter

end Writer
