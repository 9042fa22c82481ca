import Mathlib

/-!
# Reading a file through a buffer

How tokio reads a file. An `fs::File` is read at its position (`File`); an `io::BufReader` asks its file for more
than it was asked for and keeps the rest to itself (`BufReader`). What the device does is left open: each read and
each seek comes with a grant, which says whether it fails and, if not, how much there is at once. Either reader may
give less than it was asked for, so that a caller who wants all of it asks again (`read_exact`).
-/

namespace Reading

variable {α σ : Type}

/-- Why `read_exact` ends without all that was asked for: the reader has no more (`ErrorKind::UnexpectedEof`), or a
read of it failed. -/
inductive ReadError where
  | unexpectedEof
  | device
  deriving DecidableEq, Repr

/-- What the device lets one read of a file do: fail, or give at most so many elements and one more. A read that
gives nothing is the end of the file, so that a read of what is not empty gives at least one. -/
abbrev Grant : Type := Option Nat

/-- `fs::File`: its contents and the place the next read of it starts at. It reads no more from the device than it
is asked for, so that it holds nothing back between two reads. -/
structure File (α : Type) where
  contents : List α
  pos : Nat
  deriving DecidableEq, Repr

/-- `io::BufReader`: the file it reads from, and what it read ahead and has not handed out. -/
structure BufReader (α : Type) where
  file : File α
  buffer : List α
  deriving DecidableEq, Repr

/-- What reading until enough has come ends with: the elements that came, why they are not enough if they are not, and the
source after it. -/
structure Taken (α σ : Type) where
  taken : List α
  error : Option ReadError
  source : σ

/-! ## The reads -/

/-- What stands in a file from its position on. -/
def File.ahead (file : File α) : List α := file.contents.drop file.pos

/-- `poll_read` of an `fs::File`, of at most `n` elements: the position moves behind what is given, and a read that
fails leaves it. -/
def File.read (file : File α) (n : Nat) : Grant → Option (List α) × File α
  | none => (none, file)
  | some most =>
    let chunk := file.ahead.take (min n (most + 1))
    (some chunk, { file with pos := file.pos + chunk.length })

/-- Hands out at most `n` elements of the buffer. -/
def BufReader.handOut (r : BufReader α) (n : Nat) : Option (List α) × BufReader α :=
  (some (r.buffer.take n), { r with buffer := r.buffer.drop n })

/-- `poll_read` of an `io::BufReader`, of at most `n` elements: from the buffer, which is filled first if there is
nothing in it; a read as large as the buffer does not go through it then. -/
def BufReader.read (capacity : Nat) (r : BufReader α) (n : Nat) (grant : Grant) : Option (List α) × BufReader α :=
  if r.buffer ≠ [] then r.handOut n
  else if capacity ≤ n then
    let (chunk, file) := r.file.read n grant
    (chunk, { r with file })
  else
    match r.file.read capacity grant with
    | (none, file) => (none, { r with file })
    | (some chunk, file) => BufReader.handOut { file, buffer := chunk } n

/-- `seek` of an `io::BufReader` to a place from the start: the file is sought, and what was read ahead is dropped,
unless the file refuses. A seek of the file under the reader is not one: it leaves the buffer. -/
def BufReader.seek (r : BufReader α) (place : Nat) (granted : Bool) : Bool × BufReader α :=
  if granted then (true, { file := { r.file with pos := place }, buffer := [] }) else (false, r)

/-- `read_exact`, of `n` elements: reads until they have come, the source has no more or a read fails. The grants
are for the reads one after another, and there are no more than `fuel` of them. -/
def readExactFrom (read : σ → Nat → Grant → Option (List α) × σ) : Nat → Nat → (Nat → Grant) → σ →
    Taken α σ
  | 0, _, _, s => { taken := [], error := none, source := s }
  | _ + 1, 0, _, s => { taken := [], error := none, source := s }
  | fuel + 1, n + 1, grants, s =>
    match read s (n + 1) (grants 0) with
    | (none, s) => { taken := [], error := some .device, source := s }
    | (some [], s) => { taken := [], error := some .unexpectedEof, source := s }
    | (some (x :: chunk), s) =>
      let out := readExactFrom read fuel (n - chunk.length) (fun k => grants (k + 1)) s
      { out with taken := x :: chunk ++ out.taken }

/-- Reads until `n` elements have come: every read that gives any leaves fewer to come, so that `n` of them are enough. -/
def readExact (read : σ → Nat → Grant → Option (List α) × σ) (n : Nat) (grants : Nat → Grant) (s : σ) :
    Taken α σ :=
  readExactFrom read n n grants s

/-- Reading nothing does nothing. -/
@[simp] theorem readExactFrom_zero (read : σ → Nat → Grant → Option (List α) × σ) (fuel : Nat)
    (grants : Nat → Grant) (s : σ) :
    readExactFrom read fuel 0 grants s = { taken := [], error := none, source := s } := by
  cases fuel <;> rfl

/-! ## What a read leaves -/

/-- Single reads that take elements off the front of what is to come, no more than asked for, and keep an invariant. -/
structure Delivers (read : σ → Nat → Grant → Option (List α) × σ) (rest : σ → List α) (I : σ → Prop) :
    Prop where
  step : ∀ s n grant, I s → I (read s n grant).2 ∧ ((read s n grant).1.getD []).length ≤ n ∧
    rest s = (read s n grant).1.getD [] ++ rest (read s n grant).2

/-- Reading until enough has come takes what came off the front of what is to come. -/
theorem Delivers.readExactFrom {read : σ → Nat → Grant → Option (List α) × σ} {rest : σ → List α}
    {I : σ → Prop} (hd : Delivers read rest I) (fuel n : Nat) (grants : Nat → Grant) (s : σ) (hs : I s) :
    I (readExactFrom read fuel n grants s).source ∧
      rest s = (readExactFrom read fuel n grants s).taken ++ rest (readExactFrom read fuel n grants s).source := by
  induction fuel generalizing n grants s with
  | zero => exact ⟨hs, rfl⟩
  | succ fuel ih =>
    cases n with
    | zero => exact ⟨hs, rfl⟩
    | succ n =>
      have hstep := hd.step s (n + 1) (grants 0) hs
      unfold Reading.readExactFrom
      rcases hread : read s (n + 1) (grants 0) with ⟨chunk, s'⟩
      rw [hread] at hstep
      obtain ⟨hI, -, hrest⟩ := hstep
      rcases chunk with _ | _ | ⟨x, chunk⟩
      · exact ⟨hI, hrest⟩
      · exact ⟨hI, hrest⟩
      · obtain ⟨hI', hrest'⟩ := ih (n - chunk.length) (fun k => grants (k + 1)) s' hI
        refine ⟨hI', ?_⟩
        rw [hrest, hrest']
        simp

/-- Reading until enough has come gives, unless it fails, as much as was asked for. -/
theorem Delivers.readExactFrom_length {read : σ → Nat → Grant → Option (List α) × σ} {rest : σ → List α}
    {I : σ → Prop} (hd : Delivers read rest I) {fuel n : Nat} (hfuel : n ≤ fuel) {grants : Nat → Grant} {s : σ}
    (hs : I s) (hok : (Reading.readExactFrom read fuel n grants s).error = none) :
    (Reading.readExactFrom read fuel n grants s).taken.length = n := by
  induction fuel generalizing n grants s with
  | zero => exact (Nat.le_zero.mp hfuel).symm
  | succ fuel ih =>
    cases n with
    | zero => rfl
    | succ n =>
      have hstep := hd.step s (n + 1) (grants 0) hs
      unfold Reading.readExactFrom at hok ⊢
      rcases hread : read s (n + 1) (grants 0) with ⟨chunk, s'⟩
      rw [hread] at hstep hok
      obtain ⟨hI, hle, -⟩ := hstep
      rcases chunk with _ | _ | ⟨x, chunk⟩
      · cases hok
      · cases hok
      · have hlen := ih (n := n - chunk.length) (by omega) hI hok
        simp only [Option.getD_some, List.length_cons] at hle
        simp only [List.cons_append, List.length_cons, List.length_append, hlen]
        omega

/-- Reading until enough has come, when it does not fail, gives exactly the front of what is to come. -/
theorem Delivers.readExact_ok {read : σ → Nat → Grant → Option (List α) × σ} {rest : σ → List α}
    {I : σ → Prop} (hd : Delivers read rest I) {n : Nat} {grants : Nat → Grant} {s : σ} (hs : I s)
    (hok : (readExact read n grants s).error = none) :
    (readExact read n grants s).taken = (rest s).take n ∧ n ≤ (rest s).length := by
  have hlen := hd.readExactFrom_length (Nat.le_refl n) hs hok
  have hrest := (hd.readExactFrom n n grants s hs).2
  rw [readExact]
  constructor
  · rw [hrest, List.take_left' hlen]
  · rw [hrest, List.length_append, hlen]
    exact Nat.le_add_right n _

/-- Single reads that give something, unless they fail, as long as something is to come. -/
def Serves (read : σ → Nat → Grant → Option (List α) × σ) (rest : σ → List α) : Prop :=
  ∀ s n most, 0 < n → rest s ≠ [] → ∃ x chunk, (read s n (some most)).1 = some (x :: chunk)

/-- Reading until enough has come does not fail, when no read does and as much as is asked for is to come. -/
theorem Delivers.readExactFrom_error {read : σ → Nat → Grant → Option (List α) × σ} {rest : σ → List α}
    {I : σ → Prop} (hd : Delivers read rest I) (hserves : Serves read rest) {fuel n : Nat} {grants : Nat → Grant}
    (hgrants : ∀ k, (grants k).isSome) {s : σ} (hs : I s) (hlen : n ≤ (rest s).length) :
    (Reading.readExactFrom read fuel n grants s).error = none := by
  induction fuel generalizing n grants s with
  | zero => rfl
  | succ fuel ih =>
    cases n with
    | zero => rfl
    | succ n =>
      obtain ⟨most, hmost⟩ := Option.isSome_iff_exists.mp (hgrants 0)
      have hne : rest s ≠ [] := List.length_pos_iff.mp (by omega)
      obtain ⟨x, chunk, hchunk⟩ := hserves s (n + 1) most (Nat.succ_pos n) hne
      have hstep := hd.step s (n + 1) (some most) hs
      rw [Reading.readExactFrom, hmost]
      rcases hread : read s (n + 1) (some most) with ⟨got, s'⟩
      rw [hread] at hstep hchunk
      cases hchunk
      obtain ⟨hI, -, hrest⟩ := hstep
      have hlen' := congrArg List.length hrest
      simp only [Option.getD_some, List.length_append, List.length_cons] at hlen'
      exact ih (fun k => hgrants (k + 1)) hI (by omega)

/-- Reads that give something, if only nothing more, unless the system lets them fail. -/
def Gives (read : σ → Nat → Grant → Option (List α) × σ) : Prop := ∀ s n most, (read s n (some most)).1.isSome

/-- Reading until enough has come ends before that only where no more is to come, when no read fails. -/
theorem Gives.readExactFrom_error {read : σ → Nat → Grant → Option (List α) × σ} (hg : Gives read)
    (fuel n : Nat) {grants : Nat → Grant} (hgrants : ∀ k, (grants k).isSome) (s : σ) :
    (Reading.readExactFrom read fuel n grants s).error ≠ some .device := by
  induction fuel generalizing n grants s with
  | zero => exact nofun
  | succ fuel ih =>
    cases n with
    | zero => exact nofun
    | succ n =>
      obtain ⟨most, hmost⟩ := Option.isSome_iff_exists.mp (hgrants 0)
      have hsome := hg s (n + 1) most
      rw [Reading.readExactFrom, hmost]
      rcases hread : read s (n + 1) (some most) with ⟨_ | _ | ⟨x, chunk⟩, s'⟩
      · rw [hread] at hsome
        cases hsome
      · exact nofun
      · exact ih _ (fun k => hgrants (k + 1)) s'

/-- Reading until enough has come, when no read fails, gives exactly the front of what is to come if there is
enough of it, and ends with its end otherwise. -/
theorem Delivers.readExact_of_granted {read : σ → Nat → Grant → Option (List α) × σ} {rest : σ → List α}
    {I : σ → Prop} (hd : Delivers read rest I) (hserves : Serves read rest) (hg : Gives read) {n : Nat}
    {grants : Nat → Grant} (hgrants : ∀ k, (grants k).isSome) {s : σ} (hs : I s) :
    (readExact read n grants s).error = if n ≤ (rest s).length then none else some .unexpectedEof := by
  split
  · rename_i hle
    exact hd.readExactFrom_error hserves hgrants hs hle
  · rename_i hlt
    have hdevice := hg.readExactFrom_error n n hgrants s
    rcases herror : (readExact read n grants s).error with _ | _ | _
    · exact absurd (hd.readExact_ok hs herror).2 hlt
    · rfl
    · exact absurd herror hdevice

/-- What is to come after reading until enough has come. -/
theorem Delivers.rest_readExact {read : σ → Nat → Grant → Option (List α) × σ} {rest : σ → List α}
    {I : σ → Prop} (hd : Delivers read rest I) {n : Nat} {grants : Nat → Grant} {s : σ} (hs : I s)
    (hok : (readExact read n grants s).error = none) : rest (readExact read n grants s).source = (rest s).drop n := by
  have hlen := hd.readExactFrom_length (Nat.le_refl n) hs hok
  have hrest := (hd.readExactFrom n n grants s hs).2
  rw [hrest, List.drop_left' hlen, readExact]

/-- What is to come after reading until enough has come, however that ends: what was, but for what came. -/
theorem Delivers.rest_readExact_taken {read : σ → Nat → Grant → Option (List α) × σ} {rest : σ → List α}
    {I : σ → Prop} (hd : Delivers read rest I) (n : Nat) (grants : Nat → Grant) {s : σ} (hs : I s) :
    rest (readExact read n grants s).source = (rest s).drop (readExact read n grants s).taken.length := by
  rw [readExact, (hd.readExactFrom n n grants s hs).2, List.drop_left]

/-! ## Files and buffered readers -/

/-- A read of a file changes nothing in it. -/
@[simp] theorem File.contents_read (file : File α) (n : Nat) (grant : Grant) :
    (file.read n grant).2.contents = file.contents := by
  cases grant <;> rfl

/-- A read of a file gives no more than it was asked for. -/
theorem File.length_read_le (file : File α) (n : Nat) (grant : Grant) :
    ((file.read n grant).1.getD []).length ≤ n := by
  cases grant with
  | none => exact Nat.zero_le n
  | some most => exact (List.length_take_le _ _).trans (Nat.min_le_left _ _)

/-- A read of a file moves its position on by what it gave. -/
theorem File.pos_read (file : File α) (n : Nat) (grant : Grant) :
    (file.read n grant).2.pos = file.pos + ((file.read n grant).1.getD []).length := by
  cases grant <;> rfl

/-- A read of a file gives what stands at its position. -/
theorem File.ahead_read (file : File α) (n : Nat) (grant : Grant) :
    file.ahead = (file.read n grant).1.getD [] ++ (file.read n grant).2.ahead := by
  cases grant with
  | none => rfl
  | some most =>
    simp only [File.read, File.ahead, Option.getD_some]
    rw [← List.drop_drop, List.length_take, Nat.min_comm, ← List.drop_eq_drop_min, List.take_append_drop]

/-- Reads of a file take elements off the front of what stands from its position on. -/
theorem File.read_delivers (contents : List α) :
    Delivers (σ := File α) File.read File.ahead fun file => file.contents = contents where
  step file n grant hfile := ⟨(file.contents_read n grant).trans hfile, file.length_read_le n grant,
    file.ahead_read n grant⟩

/-- What is to come from a buffered reader: what it read ahead, then what its file has. -/
def BufReader.rest (r : BufReader α) : List α := r.buffer ++ r.file.ahead

/-- What was read ahead is what stands in the file right before the place the file was read up to. -/
def BufReader.ReadUpTo (r : BufReader α) (place : Nat) : Prop :=
  r.buffer.length ≤ place ∧ r.file.contents.drop (place - r.buffer.length) = r.buffer ++ r.file.contents.drop place

namespace BufReader

/-- After a move to a place, what stands there is to come. -/
theorem rest_seek (r : BufReader α) (place : Nat) :
    (r.seek place true).2.rest = r.file.contents.drop place ∧
    (r.seek place true).2.file.contents = r.file.contents := by
  simp [seek, rest, File.ahead]

/-- A reader with an empty buffer has read up to any place. -/
theorem readUpTo_of_empty {r : BufReader α} (h : r.buffer = []) (place : Nat) : r.ReadUpTo place := by
  rw [ReadUpTo, h]
  exact ⟨Nat.zero_le place, rfl⟩

/-- Handing out elements of the buffer takes them off the front of what is to come. -/
theorem rest_handOut (r : BufReader α) (n : Nat) : r.rest = (r.handOut n).1.getD [] ++ (r.handOut n).2.rest := by
  simp [rest, handOut, ← List.append_assoc]

/-- Handing out elements of the buffer leaves the rest of it where it stands in the file. -/
theorem ReadUpTo.handOut {r : BufReader α} {place : Nat} (h : r.ReadUpTo place) (n : Nat) :
    (r.handOut n).2.ReadUpTo place := by
  obtain ⟨hle, hdrop⟩ := h
  simp only [BufReader.handOut, ReadUpTo, List.length_drop]
  rcases Nat.le_total n r.buffer.length with hn | hn
  · refine ⟨by omega, ?_⟩
    have hplace : place - (r.buffer.length - n) = place - r.buffer.length + n := by omega
    rw [hplace, ← List.drop_drop, hdrop, List.drop_append_of_le_length hn]
  · rw [List.drop_eq_nil_of_le hn, Nat.sub_eq_zero_of_le hn]
    exact ⟨Nat.zero_le place, rfl⟩

/-- What one read of a buffered reader does: it hands out of a buffer that is not empty; or it reads the file, past
the empty buffer or into it. -/
theorem read_cases (capacity : Nat) (r : BufReader α) (n : Nat) (grant : Grant) :
    (r.buffer ≠ [] ∧ r.read capacity n grant = r.handOut n) ∨
      (r.buffer = [] ∧ r.read capacity n grant = ((r.file.read n grant).1,
        { r with file := (r.file.read n grant).2 })) ∨
      (r.buffer = [] ∧ (r.file.read capacity grant).1 = none ∧
        r.read capacity n grant = (none, { r with file := (r.file.read capacity grant).2 })) ∨
      (r.buffer = [] ∧ ∃ chunk, (r.file.read capacity grant).1 = some chunk ∧
        r.read capacity n grant = BufReader.handOut { file := (r.file.read capacity grant).2, buffer := chunk } n) := by
  by_cases hbuf : r.buffer = []
  · refine Or.inr ?_
    by_cases hcap : capacity ≤ n
    · exact Or.inl ⟨hbuf, by simp [read, hbuf, hcap]⟩
    · refine Or.inr ?_
      rcases hread : r.file.read capacity grant with ⟨_ | chunk, file⟩
      · exact Or.inl ⟨hbuf, rfl, by simp [read, hbuf, hcap, hread]⟩
      · exact Or.inr ⟨hbuf, chunk, rfl, by simp [read, hbuf, hcap, hread]⟩
  · exact Or.inl ⟨hbuf, by simp [read, hbuf]⟩

/-- A read of a buffered reader changes nothing in the file, gives no more than it was asked for, and takes it off
the front of what is to come. -/
theorem read_step (capacity : Nat) (r : BufReader α) (n : Nat) (grant : Grant) :
    (r.read capacity n grant).2.file.contents = r.file.contents ∧ ((r.read capacity n grant).1.getD []).length ≤ n ∧
      r.rest = (r.read capacity n grant).1.getD [] ++ (r.read capacity n grant).2.rest := by
  have hcontents := r.file.contents_read
  rcases r.read_cases capacity n grant with
    ⟨-, heq⟩ | ⟨hbuf, heq⟩ | ⟨hbuf, hnone, heq⟩ | ⟨hbuf, chunk, hchunk, heq⟩
  · rw [heq]
    exact ⟨rfl, List.length_take_le _ _, r.rest_handOut n⟩
  · rw [heq]
    refine ⟨hcontents n grant, r.file.length_read_le n grant, ?_⟩
    rw [rest, rest, hbuf]
    exact r.file.ahead_read n grant
  · have hahead := r.file.ahead_read capacity grant
    rw [hnone] at hahead
    rw [heq]
    refine ⟨hcontents capacity grant, Nat.zero_le n, ?_⟩
    rw [rest, rest, hbuf]
    exact hahead
  · have hahead := r.file.ahead_read capacity grant
    rw [hchunk] at hahead
    rw [heq]
    refine ⟨hcontents capacity grant, List.length_take_le _ _, ?_⟩
    rw [← rest_handOut, rest, rest, hbuf]
    exact hahead

/-- Reads of a buffered reader take elements off the front of what is to come from it. -/
theorem read_delivers (capacity : Nat) (contents : List α) :
    Delivers (σ := BufReader α) (BufReader.read capacity) BufReader.rest fun r => r.file.contents = contents where
  step r n grant hr := ⟨(r.read_step capacity n grant).1.trans hr, (r.read_step capacity n grant).2⟩

/-- A read of a file that has more gives some of it. -/
theorem serves_file_read {file : File α} (hne : file.ahead ≠ []) {n : Nat} (hn : 0 < n) (most : Nat) :
    ∃ x chunk, (file.read n (some most)).1 = some (x :: chunk) := by
  obtain ⟨x, ahead, hcons⟩ := List.exists_cons_of_ne_nil hne
  obtain ⟨m, hm⟩ : ∃ m, min n (most + 1) = m + 1 := ⟨min n (most + 1) - 1, by omega⟩
  exact ⟨x, ahead.take m, by simp only [File.read, hcons, hm, List.take_succ_cons]⟩

/-- Reads of a file that has more give some of it, and any read gives something. -/
theorem serves_gives_file_read : Serves (File.read (α := α)) File.ahead ∧ Gives (File.read (α := α)) :=
  ⟨fun _ _ most hn hne => serves_file_read hne hn most, fun _ _ _ => rfl⟩

/-- A read of a buffered reader that has more gives some of it. -/
theorem read_serves (capacity : Nat) : Serves (BufReader.read (α := α) capacity) BufReader.rest := by
  intro r n most hn hne
  obtain ⟨n, rfl⟩ : ∃ m, n = m + 1 := ⟨n - 1, by omega⟩
  by_cases hbuf : r.buffer = []
  · have hahead : r.file.ahead ≠ [] := by rwa [rest, hbuf, List.nil_append] at hne
    by_cases hcap : capacity ≤ n + 1
    · obtain ⟨x, chunk, hread⟩ := serves_file_read hahead hn most
      exact ⟨x, chunk, by simp only [read, hbuf, ne_eq, not_true_eq_false, if_false, hcap, if_true, hread]⟩
    · obtain ⟨x, chunk, hread⟩ := serves_file_read hahead (Nat.zero_lt_of_lt (Nat.lt_of_not_le hcap)) most
      refine ⟨x, chunk.take n, ?_⟩
      simp only [read, hbuf, ne_eq, not_true_eq_false, if_false, hcap]
      rcases hgot : r.file.read capacity (some most) with ⟨got, file⟩
      rw [hgot] at hread
      cases hread
      rfl
  · obtain ⟨x, buffer, hcons⟩ := List.exists_cons_of_ne_nil hbuf
    exact ⟨x, buffer.take n, by rw [read, if_pos hbuf, handOut, hcons, List.take_succ_cons]⟩

/-- A file read into an empty buffer has been read up to its position. -/
theorem readUpTo_fill {file : File α} {chunk : List α} {n : Nat} {grant : Grant}
    (h : (file.read n grant).1 = some chunk) :
    BufReader.ReadUpTo { file := (file.read n grant).2, buffer := chunk } (file.read n grant).2.pos := by
  have hpos := file.pos_read n grant
  have hahead := file.ahead_read n grant
  rw [h, Option.getD_some] at hpos hahead
  have hplace : (file.read n grant).2.pos - chunk.length = file.pos := by omega
  refine ⟨by simp only [hpos]; omega, ?_⟩
  simp only [hplace, File.contents_read]
  rw [File.ahead, File.ahead, File.contents_read] at hahead
  exact hahead

/-- A read that reads the file leaves it read up to its position. -/
theorem ReadUpTo.read {r : BufReader α} (h : r.ReadUpTo r.file.pos) (capacity n : Nat) (grant : Grant) :
    (r.read capacity n grant).2.ReadUpTo (r.read capacity n grant).2.file.pos := by
  rcases r.read_cases capacity n grant with
    ⟨-, heq⟩ | ⟨hbuf, heq⟩ | ⟨hbuf, -, heq⟩ | ⟨hbuf, chunk, hchunk, heq⟩
  · rw [heq]
    exact h.handOut n
  · rw [heq]
    exact readUpTo_of_empty (by exact hbuf) _
  · rw [heq]
    exact readUpTo_of_empty (by exact hbuf) _
  · rw [heq]
    exact (readUpTo_fill hchunk).handOut n

/-- Reads of a buffered reader that has been read up to the position of its file leave it so. -/
theorem read_delivers_readUpTo (capacity : Nat) :
    Delivers (σ := BufReader α) (BufReader.read capacity) BufReader.rest fun r => r.ReadUpTo r.file.pos where
  step r n grant hr := ⟨hr.read capacity n grant, (r.read_step capacity n grant).2⟩

/-- A buffer that holds no less than is asked for answers alone. -/
theorem readExact_of_le {r : BufReader α} {n : Nat} (hle : n ≤ r.buffer.length) (capacity : Nat)
    (grants : Nat → Grant) :
    readExact (BufReader.read capacity) n grants r =
      { taken := r.buffer.take n, error := none, source := { r with buffer := r.buffer.drop n } } := by
  cases n with
  | zero => rfl
  | succ n =>
    rcases hbuf : r.buffer with _ | ⟨x, buffer⟩
    · simp [hbuf] at hle
    · have hn : n - (buffer.take n).length = 0 := by
        simp only [hbuf, List.length_cons] at hle
        rw [List.length_take]
        omega
      rw [List.length_take] at hn
      simp [readExact, readExactFrom, read, handOut, hbuf, hn]

/-- A buffer that holds less than is asked for is used up, and what is read ahead after it is read up to the
position of the file. -/
theorem readUpTo_readExact {r : BufReader α} {n : Nat} (hlt : r.buffer.length < n) (capacity : Nat)
    (grants : Nat → Grant) : (readExact (BufReader.read capacity) n grants r).source.ReadUpTo
      (readExact (BufReader.read capacity) n grants r).source.file.pos := by
  have hrun := fun fuel n grants s hs => ((read_delivers_readUpTo (α := α) capacity).readExactFrom fuel n grants s hs).1
  by_cases hbuf : r.buffer = []
  · exact hrun n n grants r (readUpTo_of_empty hbuf _)
  · cases n with
    | zero => exact absurd hlt (Nat.not_lt_zero _)
    | succ n =>
      obtain ⟨x, buffer, hcons⟩ := List.exists_cons_of_ne_nil hbuf
      have htake : r.buffer.take (n + 1) = x :: buffer := by
        rw [List.take_of_length_le (Nat.le_of_lt hlt), hcons]
      have hdrop : r.buffer.drop (n + 1) = [] := List.drop_eq_nil_of_le (Nat.le_of_lt hlt)
      have hread : r.read capacity (n + 1) (grants 0) = (some (x :: buffer), { r with buffer := [] }) := by
        rw [read, if_pos hbuf, handOut, htake, hdrop]
      rw [readExact, readExactFrom, hread]
      exact hrun n _ _ _ (readUpTo_of_empty rfl _)

end BufReader

end Reading
