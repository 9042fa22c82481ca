import Kobzar.Library.Runs
import Kobzar.Wal.Discovery
import Kobzar.Wal.Log

/-!
# Runs of the log

A process opens the log, calls its methods and stops; what was written since the last sync may then be lost from
some place on. Besides the disk and the open log, the system keeps track of the entries whose write succeeded, and
of how far segments were dropped. An entry is `pending` while it is not synced; it is `doubted` once the device has
refused a write before it was synced, since nobody knows then what was lost. A sync acknowledges both, but only the
pending ones are `durable`.

What an event can do to the system is said once (`WalSystem.Steps`); what runs keep is proved from that, case by
case.
-/

namespace Kobzar

open Writer

/-! ## Events -/

/-- A call of a method of the open log. -/
inductive WalCall where
  | writeEntry (tx : U64) (entry : WalEntry) (rooms : List Room)
  | flush (rooms : List Room)
  | sync (faults : WalFaults)
  | currentLsn (faults : WalFaults)
  | cutWal (faults : WalFaults)
  | dropFilesBeforeLsn (bound : U64) (readDir : Except String ReadDir) (faults : U64 → Option IoError)

/-- What can happen: a call, a stop that keeps so much of what was not synced in each file, or `open_latest` by a new
process. -/
inductive WalEvent where
  | call (call : WalCall)
  | stop (keep : Nat → Nat)
  | openLatest (readDir : Except String ReadDir) (capacity : Nat) (fault : Option IoError)

/-- An entry whose write succeeded: the segment it went to, by the LSN it starts at and by its file, its place
there, and its bytes. -/
structure Written where
  start : U64
  file : Nat
  offset : Nat
  bytes : List U8
  deriving DecidableEq, Repr

/-- The disk, the open log if a process runs, the entries written and not synced by it, of which those in doubt are
apart, all entries that were synced, with and without a doubt, and the highest bound below which segments were
dropped. -/
structure WalSystem where
  disk : Disk
  wal : Option Wal
  pending : List Written
  doubted : List Written
  durable : List Written
  acknowledged : List Written
  dropped : Nat

/-- What a stop leaves of a file. -/
def DiskFile.crash (file : DiskFile) (keep : Nat) : DiskFile := { file with recent := file.recent.take keep }

/-- What a stop leaves of the disk. -/
def Disk.crash (disk : Disk) (keep : Nat → Nat) : Disk where
  dir := disk.dir
  files := disk.files.mapIdx fun file f => f.crash (keep file)
  named name file h := by
    rw [List.length_mapIdx]
    exact disk.named name file h

/-- An entry that is written to the log. -/
def Log.written (digest : Digest) (log : Log) (tx : U64) (entry : WalEntry) : Written where
  start := log.wal.offsetLsn
  file := log.wal.file
  offset := log.stream.length
  bytes := entryBytes digest tx entry

/-- A call has lost nothing of the entry: the device has refused nothing, or only what is behind the entry. -/
def Log.spares (log log' : Log) (e : Written) : Bool :=
  log'.wal.refused = log.wal.refused || e.offset + e.bytes.length ≤ (log'.disk.bytes log'.wal.file).length

namespace WalCall

/-- The log after a call, however it ends. -/
def run (digest : Digest) (log : Log) : WalCall → Log
  | .writeEntry tx entry rooms => (log.writeEntry digest tx entry rooms).2
  | .flush rooms => (log.flush rooms).2
  | .sync faults => (log.sync faults).2
  | .currentLsn faults => (log.currentLsn faults).2
  | .cutWal faults => (log.cutWal faults).2
  | .dropFilesBeforeLsn bound readDir faults =>
      { log with disk := (Kobzar.dropFilesBeforeLsn log.disk bound readDir faults).2 }

/-- Whether the call syncs the log: a sync or a cut that succeeds. -/
def syncs (log : Log) : WalCall → Bool
  | .sync faults => (log.sync faults).1.isOk
  | .cutWal faults => (log.cutWal faults).1.isOk
  | _ => false

/-- The entry that the call has written, if any. -/
def written (digest : Digest) (log : Log) : WalCall → List Written
  | .writeEntry tx entry rooms =>
    if (log.writeEntry digest tx entry rooms).1 = .ok () then [log.written digest tx entry] else []
  | _ => []

/-- What the call gives to the log: the write of an entry a front of its bytes, and all of them when it succeeds. -/
def Gives (digest : Digest) (log : Log) : WalCall → List U8 → Prop
  | .writeEntry tx entry rooms, given => given <+: entryBytes digest tx entry ∧
      ((log.writeEntry digest tx entry rooms).1 = .ok () → given = entryBytes digest tx entry)
  | _, given => given = []

end WalCall

namespace WalSystem

/-- No process, and nothing written yet. -/
def start (disk : Disk) : WalSystem where
  disk := disk
  wal := none
  pending := []
  doubted := []
  durable := []
  acknowledged := []
  dropped := 0

/-- The log that is open. -/
abbrev log (s : WalSystem) (wal : Wal) : Log := { disk := s.disk, wal }

/-- The system after a call that synced nothing, with the entry that it has written, if any. -/
def passed (s : WalSystem) (log log' : Log) (written : List Written) : WalSystem :=
  { s with
    disk := log'.disk
    wal := some log'.wal
    pending := (written ++ s.pending).filter fun e => log.spares log' e
    doubted := ((written ++ s.pending).filter fun e => !log.spares log' e) ++ s.doubted }

/-- The system after a call that synced the log. -/
def synced (s : WalSystem) (log' : Log) : WalSystem :=
  { s with
    disk := log'.disk
    wal := some log'.wal
    pending := []
    doubted := []
    durable := s.pending ++ s.durable
    acknowledged := s.pending ++ s.doubted ++ s.acknowledged }

/-- A call of a method. -/
def called (digest : Digest) (s : WalSystem) (log : Log) : WalCall → WalSystem
  | .dropFilesBeforeLsn bound readDir faults =>
    { s with disk := (dropFilesBeforeLsn log.disk bound readDir faults).2, dropped := max s.dropped bound.toNat }
  | call =>
    if call.syncs log then s.synced (call.run digest log)
    else s.passed log (call.run digest log) (call.written digest log)

/-- The system after a stop of the process. -/
def stopped (s : WalSystem) (keep : Nat → Nat) : WalSystem :=
  { s with disk := s.disk.crash keep, wal := none, pending := [], doubted := [] }

/-- What an event leaves. A method is called by a running process, the log is opened by a new one. -/
def next (digest : Digest) (s : WalSystem) : WalEvent → WalSystem
  | .call call =>
    match s.wal with
    | some wal => s.called digest (s.log wal) call
    | none => s
  | .stop keep => s.stopped keep
  | .openLatest readDir capacity fault =>
    match s.wal, openLatest s.disk readDir capacity fault with
    | none, .ok (wal, disk) => { s with disk, wal := some wal }
    | _, _ => s

end WalSystem

/-- The listing is one of the directory: it has no other names, and all of them if it has no errors. -/
def Disk.Lists (disk : Disk) (readDir : ReadDir) : Prop :=
  (∀ name, .ok name ∈ readDir → name ∈ disk.dir) ∧
    ((∃ fault, .error fault ∈ readDir) ∨ ∀ name ∈ disk.dir, .ok name ∈ readDir)

/-- The log is opened on a listing of its directory. -/
def WalSystem.Listed (s : WalSystem) : WalEvent → Prop
  | .openLatest readDir .. => ∀ entries, readDir = .ok entries → s.disk.Lists entries
  | _ => True

/-- The states reached from a disk by events that the guard admits. -/
def WalSystem.Run (digest : Digest) (guard : WalSystem → WalEvent → Prop) (disk : Disk) : WalSystem → Prop :=
  Runs.Reaches guard (fun s event t => s.Listed event ∧ s.next digest event = t) (WalSystem.start disk)

/-! ## Files that keep what is safe -/

namespace Disk

variable {disk disk' : Disk}

@[simp] theorem safe_crash (keep : Nat → Nat) (file : Nat) : (disk.crash keep).safe file = disk.safe file := by
  simp only [safe, crash, List.getElem?_mapIdx]
  cases disk.files[file]? <;> rfl

/-- A new file changes nothing of any file that is safe. -/
@[simp] theorem safe_create (disk : Disk) (name : FileName) (file : Nat) :
    (disk.create name).safe file = disk.safe file := by
  simp only [safe, create]
  rcases Nat.lt_trichotomy file disk.files.length with hlt | rfl | hgt
  · rw [List.getElem?_append_left hlt]
  · simp
  · rw [List.getElem?_eq_none (by simp; omega), List.getElem?_eq_none (by omega)]

/-- A new file changes the bytes of no file. -/
@[simp] theorem bytes_create (disk : Disk) (name : FileName) (file : Nat) :
    (disk.create name).bytes file = disk.bytes file := by
  simp only [bytes, create]
  rcases Nat.lt_trichotomy file disk.files.length with hlt | rfl | hgt
  · rw [List.getElem?_append_left hlt]
  · simp [DiskFile.bytes]
  · rw [List.getElem?_eq_none (by simp; omega), List.getElem?_eq_none (by omega)]

end Disk

/-- Opening a segment opens a file of the disk, by its name, and leaves all names and all that is in the files. -/
theorem openByLsn_files {disk disk' : Disk} {lsn : U64} {capacity : Nat} {fault : Option IoError} {wal : Wal}
    (h : openByLsn disk lsn true capacity fault = .ok (wal, disk')) :
    wal.file < disk'.files.length ∧ disk'.dir.lookup (segmentName wal.offsetLsn) = some wal.file ∧
      (∀ name file, disk.dir.lookup name = some file → disk'.dir.lookup name = some file) ∧
      (∀ file, disk'.safe file = disk.safe file) ∧ ∀ file, disk'.bytes file = disk.bytes file := by
  obtain ⟨rfl, -, ⟨hfile, rfl⟩ | ⟨hnone, hfile, rfl⟩⟩ := openByLsn_ok h
  · exact ⟨disk'.named _ _ hfile, hfile, fun _ _ h => h, fun _ => rfl, fun _ => rfl⟩
  · refine ⟨by simp [Disk.create, hfile], ?_, fun name file hname => ?_, disk.safe_create _, disk.bytes_create _⟩
    · rw [Disk.lookup_create, if_pos rfl, hfile]
    · have hne : name ≠ segmentName wal.offsetLsn := by
        rintro rfl
        exact hnone (Disk.hasSegment_iff.mpr ⟨file, hname⟩)
      rw [Disk.lookup_create, if_neg hne, hname]

/-! ## What every run keeps of the entries -/

/-- The entry stands at its place in these bytes, behind a front that has the property. -/
def Written.In (P : List U8 → Prop) (e : Written) (bytes : List U8) : Prop :=
  ∃ front, P front ∧ front.length = e.offset ∧ front ++ e.bytes <+: bytes

theorem Written.In.mono {P : List U8 → Prop} {e : Written} {bytes bytes' : List U8} (h : e.In P bytes)
    (hstarts : bytes <+: bytes') : e.In P bytes' := by
  obtain ⟨front, hP, hlen, hfront⟩ := h
  exact ⟨front, hP, hlen, hfront.trans hstarts⟩

/-- The bytes of the entry start at its place. -/
theorem Written.In.drop {P : List U8 → Prop} {e : Written} {bytes : List U8} (h : e.In P bytes) :
    e.bytes <+: bytes.drop e.offset := by
  obtain ⟨front, -, hlen, back, hback⟩ := h
  rw [← hback, ← hlen, List.append_assoc, List.drop_left]
  exact List.prefix_append _ _

/-- The entry stands in bytes that have the same front, when that is as long. -/
theorem Written.In.front {P : List U8 → Prop} {e : Written} {bytes front : List U8} (h : e.In P bytes)
    (hfront : front <+: bytes) (hle : e.offset + e.bytes.length ≤ front.length) : e.In P front := by
  obtain ⟨before, hP, hlen, hbefore⟩ := h
  refine ⟨before, hP, hlen, List.prefix_of_prefix_length_le hbefore hfront ?_⟩
  rw [List.length_append]
  omega

/-! ## What a step does -/

namespace WalSystem

variable {digest : Digest} {P : List U8 → Prop} {s t : WalSystem} {log log' : Log} {event : WalEvent}

/-- What an event does: nothing, when the log is not open for a call or cannot be opened; a call that syncs
nothing; a sync, with a cut behind it or without; the removal of segments; a stop; or the opening of the log. -/
inductive Steps (digest : Digest) (s : WalSystem) : WalEvent → WalSystem → Prop
  | idle {call : WalCall} (closed : s.wal = none) : Steps digest s (.call call) s
  | unopened (readDir : Except String ReadDir) (capacity : Nat) (fault : Option IoError) :
      Steps digest s (.openLatest readDir capacity fault) s
  | passed {call : WalCall} {wal : Wal} {log' : Log} {given : List U8} {done : Bool} (running : s.wal = some wal)
      (passes : (s.log wal).Passes given done log') (gives : call.Gives digest (s.log wal) given)
      (ok : call.syncs (s.log wal) = false) :
      Steps digest s (.call call) (s.passed (s.log wal) log' (call.written digest (s.log wal)))
  | synced {call : WalCall} {wal : Wal} {log' : Log} (running : s.wal = some wal) (syncs : (s.log wal).Syncs log')
      (ok : call.syncs (s.log wal) = true) : Steps digest s (.call call) (s.synced log')
  | cut {call : WalCall} {wal wal' : Wal} {log' : Log} {lsn : U64} {fault : Option IoError} {disk : Disk}
      (running : s.wal = some wal) (syncs : (s.log wal).Syncs log') (ok : call.syncs (s.log wal) = true)
      (ends : lsn.toNat = wal.offsetLsn.toNat + (s.log wal).stream.length)
      (opened : openByLsn log'.disk lsn true log'.wal.capacity fault = .ok (wal', disk)) :
      Steps digest s (.call call) { s.synced log' with disk, wal := some wal' }
  | dropped {wal : Wal} (bound : U64) (readDir : Except String ReadDir) (faults : U64 → Option IoError)
      (running : s.wal = some wal) :
      Steps digest s (.call (.dropFilesBeforeLsn bound readDir faults))
        { s with disk := (dropFilesBeforeLsn s.disk bound readDir faults).2, dropped := max s.dropped bound.toNat }
  | stopped (keep : Nat → Nat) : Steps digest s (.stop keep) (s.stopped keep)
  | opened {readDir : Except String ReadDir} {capacity : Nat} {fault : Option IoError} {wal : Wal} {disk : Disk}
      (closed : s.wal = none) (opened : openLatest s.disk readDir capacity fault = .ok (wal, disk)) :
      Steps digest s (.openLatest readDir capacity fault) { s with disk, wal := some wal }

/-- A call on the open log. -/
theorem steps_called {wal : Wal} (hwal : s.wal = some wal) (hvalid : (s.log wal).Valid) (call : WalCall) :
    Steps digest s (.call call) (s.called digest (s.log wal) call) := by
  cases call with
  | writeEntry tx entry rooms =>
    obtain ⟨front, done, hfront, hpasses, hok⟩ := Log.passes_writeEntry hvalid digest tx entry rooms
    exact .passed hwal hpasses ⟨hfront, fun h => (hok h).2.1⟩ rfl
  | flush rooms =>
    obtain ⟨done, hpasses, -⟩ := Log.passes_flush hvalid rooms
    exact .passed hwal hpasses rfl rfl
  | sync faults =>
    obtain ⟨done, hpasses⟩ := Log.passes_sync hvalid faults
    simp only [called, WalCall.run]
    rcases hsync : (s.log wal).sync faults with ⟨stop | _, log'⟩
    · have hok : WalCall.syncs (s.log wal) (.sync faults) = false := by
        rw [WalCall.syncs, hsync]
        rfl
      rw [hok]
      rw [hsync] at hpasses
      exact .passed hwal hpasses rfl hok
    · have hok : WalCall.syncs (s.log wal) (.sync faults) = true := by
        rw [WalCall.syncs, hsync]
        rfl
      rw [hok]
      exact .synced hwal (Log.sync_ok hvalid hsync).1 hok
  | currentLsn faults =>
    obtain ⟨done, hpasses, -⟩ := Log.passes_currentLsn hvalid faults
    exact .passed hwal hpasses rfl rfl
  | cutWal faults =>
    simp only [called, WalCall.run]
    rcases Log.cutWal_cases hvalid faults with ⟨stop, log', done, hcut, hpasses⟩ |
      ⟨log', lsn, wal', disk, hcut, hsyncs, hends, hopen⟩
    · have hok : WalCall.syncs (s.log wal) (.cutWal faults) = false := by
        rw [WalCall.syncs, hcut]
        rfl
      rw [hok, hcut]
      exact .passed hwal hpasses rfl hok
    · have hok : WalCall.syncs (s.log wal) (.cutWal faults) = true := by
        rw [WalCall.syncs, hcut]
        rfl
      rw [hok, hcut]
      exact .cut hwal hsyncs hok hends hopen
  | dropFilesBeforeLsn bound readDir faults => exact .dropped bound readDir faults hwal

/-- What the next event does, when the open log has its file. -/
theorem steps_next (hvalid : ∀ wal, s.wal = some wal → (s.log wal).Valid) (event : WalEvent) :
    Steps digest s event (s.next digest event) := by
  cases event with
  | call call =>
    cases hwal : s.wal with
    | none =>
      simp only [WalSystem.next, hwal]
      exact .idle hwal
    | some wal =>
      simp only [WalSystem.next, hwal]
      exact steps_called hwal (hvalid wal hwal) call
  | stop keep => exact .stopped keep
  | openLatest readDir capacity fault =>
    cases hwal : s.wal with
    | some wal =>
      simp only [WalSystem.next, hwal]
      exact .unopened _ _ _
    | none =>
      cases hopen : Kobzar.openLatest s.disk readDir capacity fault with
      | error stop =>
        simp only [WalSystem.next, hwal, hopen]
        exact .unopened _ _ _
      | ok opened =>
        simp only [WalSystem.next, hwal, hopen]
        exact .opened hwal hopen

/-- A call writes an entry when it is the write of one that succeeds, and none otherwise. -/
theorem written_cases (digest : Digest) (log : Log) (call : WalCall) : call.written digest log = [] ∨
    ∃ tx entry rooms, call = .writeEntry tx entry rooms ∧ (log.writeEntry digest tx entry rooms).1 = .ok () ∧
      call.written digest log = [log.written digest tx entry] := by
  cases call with
  | writeEntry tx entry rooms =>
    rw [WalCall.written]
    split
    · rename_i hok
      exact Or.inr ⟨tx, entry, rooms, rfl, hok, rfl⟩
    · exact Or.inl rfl
  | _ => exact Or.inl rfl

end WalSystem

/-! ## What calls keep -/

namespace Log.Passes

variable {P : List U8 → Prop} {log log' : Log} {given : List U8} {done : Bool}

/-- What is safe stays. -/
theorem safe_prefix (h : log.Passes given done log') (file : Nat) : log.disk.safe file <+: log'.disk.safe file := by
  by_cases hfile : file = log.wal.file
  · rw [hfile]
    exact h.safe
  · rw [Disk.safe, Disk.safe, h.others file hfile]

/-- Files are only appended to. -/
theorem bytes_prefix (h : log.Passes given done log') (file : Nat) : log.disk.bytes file <+: log'.disk.bytes file := by
  by_cases hfile : file = log.wal.file
  · obtain ⟨out, gap, hbytes, -⟩ := h.parts
    rw [hfile, hbytes]
    exact List.prefix_append _ _
  · rw [Disk.bytes, Disk.bytes, h.others file hfile]

/-- The segments stay the same. -/
theorem hasSegment (h : log.Passes given done log') (lsn : U64) : log'.disk.HasSegment lsn ↔
    log.disk.HasSegment lsn := by
  rw [Disk.HasSegment, Disk.HasSegment, h.dir]

/-- The file holds a front of what was held and given. -/
theorem file_prefix (h : log.Passes given done log') : log'.disk.bytes log.wal.file <+: log.stream ++ given := by
  obtain ⟨out, gap, hbytes, hparts, -⟩ := h.parts
  rw [hbytes, Log.stream, List.append_assoc, hparts, List.append_assoc, List.prefix_append_right_inj]
  exact List.prefix_append _ _

/-- An entry of what was held and given of which nothing is lost stands in the stream. -/
theorem spared (h : log.Passes given done log') {e : Written} (hin : e.In P (log.stream ++ given))
    (hspares : log.spares log' e = true) : e.In P log'.stream := by
  rw [spares, Bool.or_eq_true, decide_eq_true_eq, decide_eq_true_eq, h.file] at hspares
  rcases hspares with hkept | hle
  · rwa [h.stream hkept]
  · refine (hin.front h.file_prefix hle).mono ?_
    rw [Log.stream, h.file]
    exact List.prefix_append _ _

end Log.Passes

/-! ## What every run keeps of the entries -/

namespace WalSystem

variable {digest : Digest} {P : List U8 → Prop} {s t : WalSystem} {log' : Log} {event : WalEvent}

/-- The open log has its file; an entry that is pending is in its stream, a durable one in what is safe of its
file. The file has the name of the segment, unless a bound above its start was dropped by. -/
structure Keeps (P : List U8 → Prop) (s : WalSystem) : Prop where
  valid : ∀ wal, s.wal = some wal → (s.log wal).Valid
  named : ∀ wal, s.wal = some wal → s.dropped ≤ wal.offsetLsn.toNat →
    s.disk.dir.lookup (segmentName wal.offsetLsn) = some wal.file
  pending : ∀ e ∈ s.pending, ∃ wal, s.wal = some wal ∧ e.start = wal.offsetLsn ∧ e.file = wal.file ∧
    e.In P (s.log wal).stream
  durable : ∀ e ∈ s.durable, e.In P (s.disk.safe e.file) ∧
    (s.dropped ≤ e.start.toNat → s.disk.dir.lookup (segmentName e.start) = some e.file)

theorem keeps_start (P : List U8 → Prop) (disk : Disk) : Keeps P (start disk) where
  valid _ h := by cases h
  named _ h := by cases h
  pending _ h := absurd h List.not_mem_nil
  durable _ h := absurd h List.not_mem_nil

section Calls

variable {wal : Wal} {given : List U8} {done : Bool}

/-- The entries pending, as the open log has them. -/
theorem Keeps.pending_at (hs : Keeps P s) (running : s.wal = some wal) {e : Written} (he : e ∈ s.pending) :
    e.start = wal.offsetLsn ∧ e.file = wal.file ∧ e.In P (s.log wal).stream := by
  obtain ⟨wal', hw, hat⟩ := hs.pending e he
  rw [running] at hw
  cases hw
  exact hat

/-- The system keeps its entries through a call that syncs nothing, when an entry that it writes is behind a stream
that has the property. -/
theorem Keeps.passed (hs : Keeps P s) (running : s.wal = some wal) (passes : (s.log wal).Passes given done log')
    {call : WalCall} (gives : call.Gives digest (s.log wal) given)
    (hP : call.written digest (s.log wal) ≠ [] → P (s.log wal).stream) :
    Keeps P (s.passed (s.log wal) log' (call.written digest (s.log wal))) where
  valid := by
    rintro _ ⟨⟩
    exact passes.valid (hs.valid wal running)
  named := by
    rintro _ ⟨⟩ hdropped
    rw [passes.offsetLsn] at hdropped ⊢
    rw [passes.file, ← hs.named wal running hdropped]
    exact congrArg (AList.lookup _) passes.dir
  pending e he := by
    obtain ⟨he, hspares⟩ := List.mem_filter.mp he
    obtain ⟨hstart, hfile, hin⟩ : e.start = wal.offsetLsn ∧ e.file = wal.file ∧
        e.In P ((s.log wal).stream ++ given) := by
      rcases List.mem_append.mp he with he | he
      · have hfront := hP (List.ne_nil_of_mem he)
        rcases written_cases digest (s.log wal) call with hnil | ⟨tx, entry, rooms, rfl, hok, hwritten⟩
        · exact absurd (hnil ▸ he) List.not_mem_nil
        · rw [hwritten, List.mem_singleton] at he
          rw [gives.2 hok, he]
          exact ⟨rfl, rfl, _, hfront, rfl, List.prefix_refl _⟩
      · obtain ⟨hstart, hfile, hin⟩ := hs.pending_at running he
        exact ⟨hstart, hfile, hin.mono (List.prefix_append _ _)⟩
    exact ⟨log'.wal, rfl, hstart.trans passes.offsetLsn.symm, hfile.trans passes.file.symm, passes.spared hin hspares⟩
  durable e he := by
    obtain ⟨hin, hnamed⟩ := hs.durable e he
    refine ⟨hin.mono (passes.safe_prefix e.file), fun hdropped => ?_⟩
    rw [← hnamed hdropped]
    exact congrArg (AList.lookup _) passes.dir

/-- The system keeps its entries through a sync. -/
theorem Keeps.synced (hs : Keeps P s) (running : s.wal = some wal) (syncs : (s.log wal).Syncs log') :
    Keeps P (s.synced log') where
  valid := by
    rintro _ ⟨⟩
    exact syncs.passes.valid (hs.valid wal running)
  named := by
    rintro _ ⟨⟩ hdropped
    rw [syncs.passes.offsetLsn] at hdropped ⊢
    rw [syncs.passes.file, ← hs.named wal running hdropped]
    exact congrArg (AList.lookup _) syncs.passes.dir
  pending _ h := absurd h List.not_mem_nil
  durable e he := by
    rcases List.mem_append.mp he with he | he
    · obtain ⟨hstart, hfile, hin⟩ := hs.pending_at running he
      rw [hstart, hfile]
      refine ⟨?_, fun hdropped => ?_⟩
      · rw [← syncs.safe] at hin
        exact hin
      · rw [← hs.named wal running hdropped]
        exact congrArg (AList.lookup _) syncs.passes.dir
    · obtain ⟨hin, hnamed⟩ := hs.durable e he
      refine ⟨hin.mono (syncs.passes.safe_prefix e.file), fun hdropped => ?_⟩
      rw [← hnamed hdropped]
      exact congrArg (AList.lookup _) syncs.passes.dir

end Calls

/-- The system keeps its entries when a segment is opened and none is pending. -/
theorem Keeps.opened (hs : Keeps P s) (hpending : s.pending = []) {lsn : U64} {capacity : Nat} {fault : Option IoError}
    {wal : Wal} {disk : Disk} (h : openByLsn s.disk lsn true capacity fault = .ok (wal, disk)) :
    Keeps P { s with disk, wal := some wal } := by
  obtain ⟨hvalid, hnamed, hnames, hsafe, -⟩ := openByLsn_files h
  refine ⟨?_, ?_, fun e he => ?_, fun e he => ?_⟩
  · rintro _ ⟨⟩
    exact hvalid
  · rintro _ ⟨⟩ -
    exact hnamed
  · simp only [hpending] at he
    exact absurd he List.not_mem_nil
  · obtain ⟨hin, hlookup⟩ := hs.durable e he
    simp only [hsafe]
    exact ⟨hin, fun hdropped => hnames _ _ (hlookup hdropped)⟩

/-- Segments that no bound is above are not removed. -/
theorem lookup_dropFiles {disk : Disk} {bound lsn : U64} (hle : bound.toNat ≤ lsn.toNat)
    (readDir : Except String ReadDir) (faults : U64 → Option IoError) :
    (dropFilesBeforeLsn disk bound readDir faults).2.dir.lookup (segmentName lsn) =
      disk.dir.lookup (segmentName lsn) := by
  rcases (dropFilesBeforeLsn_spec disk bound readDir faults).2 (segmentName lsn) with heq | ⟨⟨low, hname, hlt⟩, -⟩
  · exact heq
  · exact absurd hlt (BitVec.not_lt.mpr (segmentName_inj hname ▸ hle))

/-- The system keeps its entries through the removal of segments. -/
theorem Keeps.dropped (hs : Keeps P s) (bound : U64) (readDir : Except String ReadDir) (faults : U64 → Option IoError) :
    Keeps P { s with
      disk := (dropFilesBeforeLsn s.disk bound readDir faults).2, dropped := max s.dropped bound.toNat } := by
  have hfiles := (dropFilesBeforeLsn_spec s.disk bound readDir faults).1
  have hsafe : ∀ file, (dropFilesBeforeLsn s.disk bound readDir faults).2.safe file = s.disk.safe file := fun file => by
    rw [Disk.safe, Disk.safe, hfiles]
  have hbytes : ∀ file, (dropFilesBeforeLsn s.disk bound readDir faults).2.bytes file = s.disk.bytes file :=
      fun file => by
    rw [Disk.bytes, Disk.bytes, hfiles]
  refine ⟨fun wal hwal => ?_, fun wal hwal hdropped => ?_, fun e he => ?_, fun e he => ?_⟩
  · rw [Log.Valid, hfiles]
    exact hs.valid wal hwal
  · obtain ⟨hle, hbound⟩ := Nat.max_le.mp hdropped
    exact (lookup_dropFiles hbound readDir faults).trans (hs.named wal hwal hle)
  · obtain ⟨wal, hwal, hstart, hfile, hin⟩ := hs.pending e he
    refine ⟨wal, hwal, hstart, hfile, ?_⟩
    rwa [Log.stream, hbytes]
  · obtain ⟨hin, hnamed⟩ := hs.durable e he
    rw [hsafe]
    refine ⟨hin, fun hdropped => ?_⟩
    obtain ⟨hle, hbound⟩ := Nat.max_le.mp hdropped
    exact (lookup_dropFiles hbound readDir faults).trans (hnamed hle)

/-- The system keeps its entries through a stop. -/
theorem Keeps.stopped (hs : Keeps P s) (keep : Nat → Nat) : Keeps P (s.stopped keep) where
  valid _ h := by cases h
  named _ h := by cases h
  pending _ h := absurd h List.not_mem_nil
  durable e he := by
    simp only [WalSystem.stopped, Disk.safe_crash]
    exact hs.durable e he

/-- When no log is open, no entry is pending. -/
theorem Keeps.pending_nil (hs : Keeps P s) (closed : s.wal = none) : s.pending = [] := by
  refine List.eq_nil_iff_forall_not_mem.mpr fun e he => ?_
  obtain ⟨wal, hwal, -⟩ := hs.pending e he
  rw [closed] at hwal
  cases hwal

/-- Every step keeps the entries, when every write that succeeds is one behind a stream that has the property. -/
theorem Keeps.step (hs : Keeps P s) (h : Steps digest s event t)
    (hwrite : ∀ tx entry rooms wal, event = .call (.writeEntry tx entry rooms) → s.wal = some wal →
      ((s.log wal).writeEntry digest tx entry rooms).1 = .ok () → P (s.log wal).stream) : Keeps P t := by
  cases h with
  | idle => exact hs
  | unopened => exact hs
  | passed running passes gives ok =>
    refine hs.passed running passes gives fun hne => ?_
    obtain ⟨tx, entry, rooms, rfl, hok, -⟩ := (written_cases digest _ _).resolve_left hne
    exact hwrite tx entry rooms _ rfl running hok
  | synced running syncs ok => exact hs.synced running syncs
  | cut running syncs ok ends opened => exact (hs.synced running syncs).opened rfl opened
  | dropped bound readDir faults running => exact hs.dropped bound readDir faults
  | stopped keep => exact hs.stopped keep
  | opened closed opened =>
    obtain ⟨lsn, -, hopen⟩ := bind_eq_ok.mp opened
    exact hs.opened (hs.pending_nil closed) hopen

/-- What the next event does. -/
theorem Keeps.steps (hs : Keeps P s) (digest : Digest) (event : WalEvent) : Steps digest s event (s.next digest event) :=
  steps_next hs.valid event

/-- The next event keeps the entries, wherever they stand. -/
theorem Keeps.next (hs : s.Keeps fun _ => True) (digest : Digest) (event : WalEvent) :
    (s.next digest event).Keeps fun _ => True :=
  hs.step (hs.steps digest event) fun _ _ _ _ _ _ _ => trivial

/-- The disk and the log after `current_lsn`. -/
theorem next_currentLsn {wal : Wal} (running : s.wal = some wal) {faults : WalFaults} {result : Except WalStop U64}
    (hok : (s.log wal).currentLsn faults = (result, log')) :
    (s.next digest (.call (.currentLsn faults))).disk = log'.disk ∧
      (s.next digest (.call (.currentLsn faults))).wal = some log'.wal := by
  have hrun : WalCall.run digest (s.log wal) (.currentLsn faults) = log' := congrArg Prod.snd hok
  simp only [WalSystem.next, running]
  exact ⟨congrArg Log.disk hrun, congrArg (fun log : Log => some log.wal) hrun⟩

end WalSystem

/-! ## The first events of a run -/

/-- One more event of a run. -/
theorem WalSystem.Run.snoc {digest : Digest} {guard : WalSystem → WalEvent → Prop} {disk : Disk} {s : WalSystem}
    (h : WalSystem.Run digest guard disk s) (event : WalEvent) (hguard : guard s event) (hlisted : s.Listed event) :
    WalSystem.Run digest guard disk (s.next digest event) :=
  Runs.Reaches.snoc h event hguard ⟨hlisted, rfl⟩

/-- A hash that does not depend on what is hashed. -/
def zeroDigest : Digest := fun _ => Vector.replicate 32 0

/-- The names of a directory are a listing of it. -/
theorem lists_of_keys {disk : Disk} {names : List FileName} (h : disk.dir.keys = names) : disk.Lists (names.map .ok) := by
  have hmem : ∀ name, name ∈ disk.dir ↔ name ∈ names := fun name => by rw [AList.mem_keys, h]
  refine ⟨fun name hname => ?_, Or.inr fun name hname => List.mem_map_of_mem ((hmem name).mp hname)⟩
  obtain ⟨other, hother, heq⟩ := List.mem_map.mp hname
  cases heq
  exact (hmem name).mpr hother

/-- The log opened in an empty directory. -/
def openedSystem : WalSystem := (WalSystem.start .empty).next zeroDigest (.openLatest (.ok []) 8192 none)

/-- It is reached by a run. -/
theorem run_openedSystem {guard : WalSystem → WalEvent → Prop}
    (h : guard (.start .empty) (.openLatest (.ok []) 8192 none)) :
    WalSystem.Run zeroDigest guard .empty openedSystem := by
  refine WalSystem.Run.snoc (Runs.Reaches.refl _) _ h ?_
  rintro entries ⟨⟩
  exact lists_of_keys rfl

end Kobzar
