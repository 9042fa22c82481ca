import Kobzar.Library.Writer
import Kobzar.Wal.Entry
import Kobzar.Wal.Segments

/-!
# Writing the log

The methods of `Wal` on the disk, through a buffered writer of the open file. What the device decides is an input
of each call: how much room it has for each write, and what else it refuses. A write that it refuses is reported by
a later call, if by any, and what was refused is lost. Sums of sizes and LSNs are checked, as in a build with
overflow checks; the hash is a parameter.
-/

namespace Kobzar

open Writer

/-- The Blake2b hash of 32 bytes. -/
abbrev Digest : Type := List U8 → Vector U8 32

/-- Why a method of the log ends without a result. -/
inductive WalStop where
  | device
  | io (error : IoError)
  | panic (reason : Panic)
  deriving DecidableEq, Repr

/-- What the device does in a method of the log: how much room it has for each write, and whether it refuses a
seek, a sync or an opening. -/
structure WalFaults where
  rooms : List Room
  onSeek : Bool
  onSync : Bool
  onOpen : Option IoError
  deriving DecidableEq, Repr

/-- Nothing fails. -/
def WalFaults.none : WalFaults where
  rooms := []
  onSeek := false
  onSync := false
  onOpen := .none

/-! ## Frames -/

/-- The bytes of an entry before its payload: size, hash, generation and kind code. -/
def headerSize : U64 := 8 + 32 + 8 + 8

/-- The size of an entry, summed up over the byte strings of its payload. -/
def entrySize (entry : WalEntry) : Outcome U64 :=
  entry.payloadWrites.foldlM (fun size data => addU64 size data.length) headerSize

/-- The padding behind an entry. -/
def padding (size : U64) : Nat := 8 - size.toNat % 8

/-- The byte strings that are written for an entry, in order. -/
def framePieces (digest : Digest) (tx : U64) (entry : WalEntry) (size : U64) : List (List U8) :=
  [le64 size, (digest (le64 tx ++ le64 entry.walCode ++ entry.payload)).toList, le64 tx, le64 entry.walCode] ++
    entry.payloadWrites ++ List.replicate (padding size) [0]

/-- The bytes that are written for an entry. -/
def frame (digest : Digest) (tx : U64) (entry : WalEntry) (size : U64) : List U8 :=
  (framePieces digest tx entry size).flatten

/-- The bytes written for an entry; none when its size is too large. -/
def entryBytes (digest : Digest) (tx : U64) (entry : WalEntry) : List U8 :=
  match entrySize entry with
  | .ok size => frame digest tx entry size
  | .error _ => []

/-- The size of an entry is that of its header and its payload. -/
theorem entrySize_ok {entry : WalEntry} {size : U64} (h : entrySize entry = .ok size) :
    size.toNat = 56 + entry.payload.length := by
  have hsum : ∀ (pieces : List (List U8)) (start size : U64),
      pieces.foldlM (fun size data => addU64 size data.length) start = .ok size →
        size.toNat = start.toNat + pieces.flatten.length := by
    intro pieces
    induction pieces with
    | nil =>
      intro start size h
      cases h
      rfl
    | cons piece pieces ih =>
      intro start size h
      rw [List.foldlM_cons] at h
      obtain ⟨next, hnext, h⟩ := bind_eq_ok.mp h
      rw [ih next size h, addU64_ok hnext, List.flatten_cons, List.length_append, Nat.add_assoc]
  exact hsum entry.payloadWrites headerSize size h

/-- A frame is as long as its size and its padding. -/
theorem frame_length (digest : Digest) (tx : U64) {entry : WalEntry} {size : U64} (h : entrySize entry = .ok size) :
    (frame digest tx entry size).length = size.toNat + padding size := by
  have hzeros : (List.replicate (padding size) [(0 : U8)]).flatten.length = padding size := by simp
  rw [entrySize_ok h, frame, framePieces, List.flatten_append, List.flatten_append, List.length_append,
    List.length_append, hzeros]
  simp [le64, WalEntry.payload]

/-- A frame starts with its size. -/
theorem frame_eq (digest : Digest) (tx : U64) (entry : WalEntry) (size : U64) :
    ∃ rest, frame digest tx entry size = le64 size ++ rest := by
  simp only [frame, framePieces, List.cons_append, List.flatten_cons]
  exact ⟨_, rfl⟩

/-! ## Files -/

namespace DiskFile

/-- All bytes of a file. -/
def bytes (file : DiskFile) : List U8 := file.safe ++ file.recent

/-- The file with more bytes at its end. -/
def append (file : DiskFile) (more : List U8) : DiskFile := { file with recent := file.recent ++ more }

/-- The file after `sync_all`. -/
def sync (file : DiskFile) : DiskFile := { safe := file.bytes, recent := [] }

@[simp] theorem bytes_append (file : DiskFile) (more : List U8) : (file.append more).bytes = file.bytes ++ more := by
  simp [bytes, append]

@[simp] theorem safe_append (file : DiskFile) (more : List U8) : (file.append more).safe = file.safe := rfl

@[simp] theorem bytes_sync (file : DiskFile) : file.sync.bytes = file.bytes := by
  simp [bytes, sync]

end DiskFile

namespace Disk

/-- The bytes of a file. -/
def bytes (disk : Disk) (file : Nat) : List U8 := (disk.files[file]?.map DiskFile.bytes).getD []

/-- The bytes of a file that a crash leaves in any case. -/
def safe (disk : Disk) (file : Nat) : List U8 := (disk.files[file]?.map DiskFile.safe).getD []

/-- The disk with one file changed. -/
def modifyFile (disk : Disk) (file : Nat) (f : DiskFile → DiskFile) : Disk where
  dir := disk.dir
  files := disk.files.modify file f
  named name other h := by
    rw [List.length_modify]
    exact disk.named name other h

variable {disk : Disk} {file : Nat} {f : DiskFile → DiskFile}

@[simp] theorem length_modifyFile : (disk.modifyFile file f).files.length = disk.files.length := by
  simp [modifyFile]

/-- The changed file. -/
theorem getElem?_modifyFile_self : (disk.modifyFile file f).files[file]? = disk.files[file]?.map f := by
  simp [modifyFile]

/-- The other files. -/
theorem getElem?_modifyFile_ne {other : Nat} (h : other ≠ file) :
    (disk.modifyFile file f).files[other]? = disk.files[other]? := by
  simp [modifyFile, Ne.symm h]

/-- What is safe of a file are its first bytes. -/
theorem safe_prefix_bytes (disk : Disk) (file : Nat) : disk.safe file <+: disk.bytes file := by
  unfold safe bytes
  cases disk.files[file]? with
  | none => exact List.prefix_refl _
  | some f => exact List.prefix_append _ _

end Disk

/-! ## The methods -/

/-- A log that is open: the disk and the `Wal` that appends to a file of it. -/
structure Log where
  disk : Disk
  wal : Wal

/-- One call after another, if the first succeeds. -/
def andThen {σ α β : Type} (x : Except WalStop α × σ) (next : α → σ → Except WalStop β × σ) :
    Except WalStop β × σ :=
  match x with
  | (.error stop, s) => (.error stop, s)
  | (.ok a, s) => next a s

namespace Log

/-- What was written to the log's file: what the file has, and what its `BufWriter` holds. -/
def stream (log : Log) : List U8 := log.disk.bytes log.wal.file ++ log.wal.buffer

/-- The `BufWriter` of the log's file, on a device that has so much room for the writes to come. -/
def writer (log : Log) (rooms : List Room) : BufWriter (List U8) U8 where
  file :=
    { device := { sink := log.disk.bytes log.wal.file, rooms, refused := log.wal.refused }
      failed := log.wal.failed }
  buffer := log.wal.buffer
  capacity := log.wal.capacity

/-- The log with its `BufWriter` as an operation left it: what was put into the file is appended to it on the disk. -/
def wrote (log : Log) (w : BufWriter (List U8) U8) : Log where
  disk := log.disk.modifyFile log.wal.file fun f => f.append (w.sink.drop f.bytes.length)
  wal := { log.wal with buffer := w.buffer, failed := w.failed, refused := w.refused }

/-- The result of an operation of the `BufWriter` as that of a method. -/
def outcome (log : Log) (result : Bool × BufWriter (List U8) U8) : Except WalStop Unit × Log :=
  (if result.1 then .ok () else .error .device, log.wrote result.2)

/-- `write_entry`. -/
def writeEntry (digest : Digest) (log : Log) (tx : U64) (entry : WalEntry) (rooms : List Room) :
    Except WalStop Unit × Log :=
  match entrySize entry with
  | .error reason => (.error (.panic reason), log)
  | .ok size => log.outcome ((log.writer rooms).writePieces (framePieces digest tx entry size))

/-- `flush`. -/
def flush (log : Log) (rooms : List Room) : Except WalStop Unit × Log := log.outcome (log.writer rooms).flush

/-- `sync_all` on the file. A failed write before it stays to be reported. -/
def syncAll (log : Log) (refused : Bool) : Except WalStop Unit × Log :=
  if refused then (.error .device, log)
  else (.ok (), { log with disk := log.disk.modifyFile log.wal.file DiskFile.sync })

/-- `sync`. -/
def sync (log : Log) (faults : WalFaults) : Except WalStop Unit × Log :=
  andThen (log.flush faults.rooms) fun _ log => log.syncAll faults.onSync

/-- `current_offset`: what is held is handed on before the file is sought to its end. The file is not flushed, so
that a failed write stays to be reported. A seek that an earlier failure has left over leads to the same end, and
is not told apart. -/
def currentOffset (log : Log) (faults : WalFaults) : Except WalStop Nat × Log :=
  andThen (log.outcome (log.writer faults.rooms).flushBuf) fun _ log =>
    if faults.onSeek then (.error .device, log) else (.ok (log.disk.bytes log.wal.file).length, log)

/-- `current_lsn`. -/
def currentLsn (log : Log) (faults : WalFaults) : Except WalStop U64 × Log :=
  andThen (log.currentOffset faults) fun offset log =>
    match addU64 log.wal.offsetLsn offset with
    | .error reason => (.error (.panic reason), log)
    | .ok lsn => (.ok lsn, log)

/-- `cut_wal`. By the time of the sync nothing is held any more, so that no room is needed for it. -/
def cutWal (log : Log) (faults : WalFaults) : Except WalStop Unit × Log :=
  andThen (log.currentLsn faults) fun lsn log =>
    andThen (log.sync faults) fun _ log =>
      match openByLsn log.disk lsn true log.wal.capacity faults.onOpen with
      | .error error => (.error (.io error), log)
      | .ok (wal, disk) => (.ok (), { disk, wal })

/-! ## What the methods leave -/

/-- The file of the log is on the disk. -/
def Valid (log : Log) : Prop := log.wal.file < log.disk.files.length

variable {log log' log'' : Log} {given given' : List U8} {done : Bool} {rooms : List Room}

/-- A file of the disk is there. -/
theorem Valid.getElem? (h : log.Valid) : ∃ f, log.disk.files[log.wal.file]? = some f :=
  ⟨_, List.getElem?_eq_getElem h⟩

/-- What is given to the `BufWriter` of the log is passed on, what is safe stays, and nothing else changes. -/
structure Passes (log : Log) (given : List U8) (done : Bool) (log' : Log) : Prop where
  dir : log'.disk.dir = log.disk.dir
  file : log'.wal.file = log.wal.file
  offsetLsn : log'.wal.offsetLsn = log.wal.offsetLsn
  length : log'.disk.files.length = log.disk.files.length
  others : ∀ file, file ≠ log.wal.file → log'.disk.files[file]? = log.disk.files[file]?
  safe : log.disk.safe log.wal.file <+: log'.disk.safe log.wal.file
  writer : (log.writer []).Passes given done (log'.writer [])

theorem Passes.refl (log : Log) : log.Passes [] true log where
  dir := rfl
  file := rfl
  offsetLsn := rfl
  length := rfl
  others _ _ := rfl
  safe := List.prefix_refl _
  writer := .refl _

/-- A call after one that succeeds. -/
theorem Passes.trans (h : log.Passes given true log') (h' : log'.Passes given' done log'') :
    log.Passes (given ++ given') done log'' where
  dir := h'.dir.trans h.dir
  file := h'.file.trans h.file
  offsetLsn := h'.offsetLsn.trans h.offsetLsn
  length := h'.length.trans h.length
  others file hfile := (h'.others file (h.file ▸ hfile)).trans (h.others file hfile)
  safe := h.safe.trans (h.file ▸ h'.safe)
  writer := h.writer.trans h'.writer

theorem Passes.valid (h : log.Passes given done log') (hv : log.Valid) : log'.Valid := by
  rw [Valid, h.file, h.length]
  exact hv

/-- Of what was held and what was given, the file takes the front, the device refuses a part behind it, and the
rest is held; while there is a failure to report, the file gets nothing. -/
theorem Passes.parts (h : log.Passes given done log') : ∃ out gap,
    log'.disk.bytes log.wal.file = log.disk.bytes log.wal.file ++ out ∧
      log.wal.buffer ++ given = out ++ gap ++ log'.wal.buffer ∧
      log'.wal.refused = log.wal.refused + gap.length ∧ (log.wal.failed = true → out = [] ∧ gap = []) := by
  obtain ⟨out, gap, hsink, hparts, hrefused, hstuck⟩ := h.writer.parts
  have hbytes : log'.disk.bytes log'.wal.file = log.disk.bytes log.wal.file ++ out := hsink
  exact ⟨out, gap, h.file ▸ hbytes, hparts, hrefused, hstuck⟩

/-- When the device refuses nothing, what is given is appended to the stream. -/
theorem Passes.stream (h : log.Passes given done log') (hkept : log'.wal.refused = log.wal.refused) :
    log'.stream = log.stream ++ given := by
  obtain ⟨out, gap, hbytes, hparts, hrefused, -⟩ := h.parts
  have hgap : gap = [] := List.length_eq_zero_iff.mp (by omega)
  rw [hgap, List.append_nil] at hparts
  rw [Log.stream, Log.stream, h.file, hbytes, List.append_assoc, List.append_assoc, hparts]

/-- A call that succeeds with no failure to report had none to report before it and lost nothing. -/
theorem Passes.clear (h : log.Passes given true log') (hclear : log'.wal.failed = false) :
    log.wal.failed = false ∧ log'.wal.refused = log.wal.refused := h.writer.clear rfl hclear

/-- The log is synced: nothing was lost, nothing is held, and the whole stream is in the file, and safe. -/
structure Syncs (log log' : Log) : Prop where
  passes : log.Passes [] true log'
  kept : log'.wal.refused = log.wal.refused
  buffer : log'.wal.buffer = []
  safe : log'.disk.safe log.wal.file = log.stream
  bytes : log'.disk.bytes log.wal.file = log.stream

/-- An operation of the `BufWriter` in the log. -/
theorem passes_wrote (h : log.Valid) {w : BufWriter (List U8) U8} (hw : (log.writer rooms).Passes given done w) :
    log.Passes given done (log.wrote w) := by
  obtain ⟨f, hf⟩ := h.getElem?
  obtain ⟨out, gap, hsink, hparts, hrefused, hstuck⟩ := hw.parts
  -- how much room there was before does not matter
  have hbytes : (log.wrote w).disk.bytes log.wal.file = w.sink := by
    rw [hsink]
    simp [Log.wrote, Disk.bytes, Disk.getElem?_modifyFile_self, hf, hsink, Log.writer, Sink.put]
  refine ⟨rfl, rfl, rfl, Disk.length_modifyFile, fun _ hfile => Disk.getElem?_modifyFile_ne hfile, ?_, ?_⟩
  · simp [Log.wrote, Disk.safe, Disk.getElem?_modifyFile_self, hf]
  · exact ⟨⟨out, gap, hbytes.trans hsink, hparts, hrefused, hstuck⟩, rfl, hw.clear, hw.sound⟩

/-- The result of an operation of the `BufWriter`. -/
theorem outcome_ok {result : Bool × BufWriter (List U8) U8} (h : log.outcome result = (.ok (), log')) :
    result.1 = true ∧ log' = log.wrote result.2 := by
  obtain ⟨done, w⟩ := result
  cases done with
  | false => cases h
  | true => exact ⟨rfl, (congrArg Prod.snd h).symm⟩

/-- Both calls of two that succeed do. -/
theorem andThen_ok {σ α β : Type} {x : Except WalStop α × σ} {next : α → σ → Except WalStop β × σ}
    {b : β} {s : σ} (h : andThen x next = (.ok b, s)) : ∃ a s', x = (.ok a, s') ∧ next a s' = (.ok b, s) := by
  rcases x with ⟨stop | a, s'⟩
  · cases h
  · exact ⟨a, s', rfl, h⟩

/-! ### Writing -/

/-- Writing an entry gives a front of its bytes to the log, and all of them when it succeeds. -/
theorem passes_writeEntry (h : log.Valid) (digest : Digest) (tx : U64) (entry : WalEntry) (rooms : List Room) :
    ∃ front done, front <+: entryBytes digest tx entry ∧
      log.Passes front done (log.writeEntry digest tx entry rooms).2 ∧ ((log.writeEntry digest tx entry rooms).1 = .ok () →
        done = true ∧ front = entryBytes digest tx entry ∧ ∃ size, entrySize entry = .ok size) := by
  cases hsize : entrySize entry with
  | error reason =>
    simp only [writeEntry, hsize]
    exact ⟨[], true, List.nil_prefix, .refl log, fun hok => by cases hok⟩
  | ok size =>
    obtain ⟨n, hn, hpasses, hall⟩ := (log.writer rooms).passes_writePieces (framePieces digest tx entry size)
    have hbytes : entryBytes digest tx entry = (framePieces digest tx entry size).flatten := by
      simp only [entryBytes, hsize, frame]
    simp only [writeEntry, hsize, hbytes]
    refine ⟨_, _, List.take_prefix n _, passes_wrote h hpasses, fun hok => ?_⟩
    have hdone := (outcome_ok (Prod.ext hok rfl)).1
    exact ⟨hdone, by rw [hall hdone, List.take_length], size, rfl⟩

/-! ### Flushing and syncing -/

/-- A flush hands on what is held; when it succeeds, nothing is held and no failure is left to report. -/
theorem passes_flush (h : log.Valid) (rooms : List Room) : ∃ done, log.Passes [] done (log.flush rooms).2 ∧
    ((log.flush rooms).1 = .ok () →
      done = true ∧ (log.flush rooms).2.wal.buffer = [] ∧ (log.flush rooms).2.wal.failed = false) := by
  obtain ⟨hpasses, hall⟩ := (log.writer rooms).passes_flush
  refine ⟨_, passes_wrote h hpasses, fun hok => ?_⟩
  have hdone := (outcome_ok (Prod.ext hok rfl)).1
  exact ⟨hdone, hall hdone⟩

/-- A `sync_all` hands nothing on. -/
theorem passes_syncAll (h : log.Valid) (refused : Bool) : log.Passes [] true (log.syncAll refused).2 := by
  cases refused with
  | true => exact .refl log
  | false =>
    obtain ⟨f, hf⟩ := h.getElem?
    refine ⟨rfl, rfl, rfl, Disk.length_modifyFile, fun _ hfile => Disk.getElem?_modifyFile_ne hfile, ?_, ?_⟩
    · simp [syncAll, Disk.safe, Disk.getElem?_modifyFile_self, hf, DiskFile.sync, DiskFile.bytes]
    · have hwriter : (log.syncAll false).2.writer [] = log.writer [] := by
        simp [syncAll, writer, Disk.bytes, Disk.getElem?_modifyFile_self, hf]
      rw [hwriter]
      exact .refl _

/-- A `sync_all` that succeeds makes the whole file safe. -/
theorem syncAll_ok (h : log.Valid) {refused : Bool} (hok : log.syncAll refused = (.ok (), log')) :
    log'.wal = log.wal ∧ log'.disk.bytes log.wal.file = log.disk.bytes log.wal.file ∧
      log'.disk.safe log.wal.file = log.disk.bytes log.wal.file := by
  obtain ⟨f, hf⟩ := h.getElem?
  cases refused with
  | true => cases hok
  | false =>
    cases hok
    refine ⟨rfl, ?_, ?_⟩
    · simp [Disk.bytes, Disk.getElem?_modifyFile_self, hf]
    · simp [Disk.bytes, Disk.safe, Disk.getElem?_modifyFile_self, hf, DiskFile.sync]

/-- A sync hands on what is held. -/
theorem passes_sync (h : log.Valid) (faults : WalFaults) : ∃ done, log.Passes [] done (log.sync faults).2 := by
  obtain ⟨done, hpasses, hall⟩ := passes_flush h faults.rooms
  unfold sync
  rcases hflush : log.flush faults.rooms with ⟨stop | _, mid⟩ <;> rw [hflush] at hpasses hall
  · exact ⟨done, hpasses⟩
  · obtain ⟨rfl, -⟩ := hall rfl
    exact ⟨true, hpasses.trans (passes_syncAll (hpasses.valid h) _)⟩

/-- A flush that succeeds had no failure to report and lost nothing: the whole stream is in the file. -/
theorem flush_ok (h : log.Valid) (hok : log.flush rooms = (.ok (), log')) :
    log.Passes [] true log' ∧ log'.wal.refused = log.wal.refused ∧ log.wal.failed = false ∧
      log'.wal.failed = false ∧ log'.wal.buffer = [] ∧ log'.disk.bytes log.wal.file = log.stream := by
  obtain ⟨done, hpasses, hall⟩ := passes_flush h rooms
  rw [hok] at hpasses hall
  obtain ⟨rfl, hnil, hclear⟩ := hall rfl
  obtain ⟨hfailed, hkept⟩ := hpasses.clear hclear
  have hstream := hpasses.stream hkept
  rw [stream, hpasses.file, hnil, List.append_nil, List.append_nil] at hstream
  exact ⟨hpasses, hkept, hfailed, hclear, hnil, hstream⟩

/-- A sync that succeeds syncs the log, and had no failure to report. -/
theorem sync_ok (h : log.Valid) {faults : WalFaults} (hok : log.sync faults = (.ok (), log')) :
    log.Syncs log' ∧ log.wal.failed = false := by
  obtain ⟨_, mid, hflush, hsync⟩ := andThen_ok hok
  obtain ⟨hpasses, hkept, hfailed, -, hnil, hbytes⟩ := flush_ok h hflush
  have hsyncAll := passes_syncAll (hpasses.valid h) faults.onSync
  obtain ⟨hwal, hsame, hsafe⟩ := syncAll_ok (hpasses.valid h) hsync
  rw [hsync] at hsyncAll
  rw [hpasses.file, hbytes] at hsame hsafe
  refine ⟨⟨hpasses.trans hsyncAll, ?_, ?_, hsafe, hsame⟩, hfailed⟩
  · rw [hwal, hkept]
  · rw [hwal, hnil]

/-! ### The current LSN -/

/-- An offset that is computed is the length of the file, which has all then that was not lost. -/
theorem passes_currentOffset (h : log.Valid) (faults : WalFaults) :
    ∃ done, log.Passes [] done (log.currentOffset faults).2 ∧
    ∀ offset, (log.currentOffset faults).1 = .ok offset → done = true ∧
      (log.currentOffset faults).2.wal.buffer = [] ∧
      offset = ((log.currentOffset faults).2.disk.bytes log.wal.file).length := by
  have hpasses := passes_wrote h (log.writer faults.rooms).passes_flushBuf
  unfold currentOffset
  rcases hflush : (log.writer faults.rooms).flushBuf with ⟨_ | _, w⟩ <;> rw [hflush] at hpasses
  · exact ⟨false, hpasses, fun offset hok => by cases hok⟩
  · refine ⟨true, ?_, fun offset hok => ?_⟩
    · cases faults.onSeek <;> exact hpasses
    · cases hseek : faults.onSeek with
      | true =>
        rw [hseek] at hok
        cases hok
      | false =>
        rw [hseek] at hok
        cases hok
        exact ⟨rfl, BufWriter.buffer_flushBuf hflush, rfl⟩

/-- An LSN that is computed is as far behind the start of the segment as its file is long, which has all then that was not
lost. -/
theorem passes_currentLsn (h : log.Valid) (faults : WalFaults) :
    ∃ done, log.Passes [] done (log.currentLsn faults).2 ∧
    ∀ lsn, (log.currentLsn faults).1 = .ok lsn → done = true ∧ (log.currentLsn faults).2.wal.buffer = [] ∧
      lsn.toNat = log.wal.offsetLsn.toNat + ((log.currentLsn faults).2.disk.bytes log.wal.file).length := by
  obtain ⟨done, hpasses, hall⟩ := passes_currentOffset h faults
  unfold currentLsn
  rcases hoffset : log.currentOffset faults with ⟨stop | offset, mid⟩ <;> rw [hoffset] at hpasses hall
  · exact ⟨done, hpasses, fun lsn hok => by cases hok⟩
  · obtain ⟨rfl, hnil, hlen⟩ := hall offset rfl
    refine ⟨true, ?_, fun lsn hok => ?_⟩
    · simp only [andThen]
      cases addU64 mid.wal.offsetLsn offset <;> exact hpasses
    · simp only [andThen] at hok ⊢
      cases hadd : addU64 mid.wal.offsetLsn offset with
      | error reason =>
        simp only [hadd] at hok
        cases hok
      | ok sum =>
        simp only [hadd] at hok ⊢
        cases hok
        refine ⟨trivial, hnil, ?_⟩
        rw [addU64_ok hadd, hpasses.offsetLsn, hlen]

/-! ### Cutting -/

/-- What a cut does: it fails and at most hands on what is held; or it has synced the log and opens a segment that
starts where the log ends. -/
theorem cutWal_cases (h : log.Valid) (faults : WalFaults) :
    (∃ stop log' done, log.cutWal faults = (.error stop, log') ∧ log.Passes [] done log') ∨
      ∃ log' lsn wal disk, log.cutWal faults = (.ok (), { disk, wal }) ∧ log.Syncs log' ∧
        lsn.toNat = log.wal.offsetLsn.toNat + log.stream.length ∧
        openByLsn log'.disk lsn true log'.wal.capacity faults.onOpen = .ok (wal, disk) := by
  obtain ⟨done, hpasses, hall⟩ := passes_currentLsn h faults
  unfold cutWal
  rcases hlsn : log.currentLsn faults with ⟨stop | lsn, mid⟩ <;> rw [hlsn] at hpasses hall
  · exact Or.inl ⟨stop, mid, done, rfl, hpasses⟩
  · obtain ⟨rfl, hnil, hlsnNat⟩ := hall lsn rfl
    obtain ⟨done, hsyncPasses⟩ := passes_sync (hpasses.valid h) faults
    rcases hsync : mid.sync faults with ⟨stop | _, log'⟩ <;> rw [hsync] at hsyncPasses
    · exact Or.inl ⟨stop, log', done, by simp only [andThen, hsync], hpasses.trans hsyncPasses⟩
    · obtain ⟨hsyncs, hfailed⟩ := sync_ok (hpasses.valid h) hsync
      -- no failure was left to report, so that the first part of the cut lost nothing either
      obtain ⟨-, hkept⟩ := hpasses.clear hfailed
      have hstream := hpasses.stream hkept
      rw [List.append_nil] at hstream
      have hfile : mid.disk.bytes log.wal.file = log.stream := by
        rw [← hstream, stream, hnil, List.append_nil, hpasses.file]
      rw [hfile] at hlsnNat
      have hboth := hpasses.trans hsyncs.passes
      have hsafe := hsyncs.safe
      have hbytes := hsyncs.bytes
      rw [hpasses.file, hstream] at hsafe hbytes
      cases hopen : openByLsn log'.disk lsn true log'.wal.capacity faults.onOpen with
      | error error => exact Or.inl ⟨.io error, log', true, by simp only [andThen, hsync, hopen], hboth⟩
      | ok opened =>
        obtain ⟨wal, disk⟩ := opened
        exact Or.inr ⟨log', lsn, wal, disk, by simp only [andThen, hsync, hopen],
          ⟨hboth, hsyncs.kept.trans hkept, hsyncs.buffer, hsafe, hbytes⟩, hlsnNat, hopen⟩

end Log

end Kobzar
