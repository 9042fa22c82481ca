import Kobzar.Wal.Retention

/-!
# The order of the log

The LSN of an entry is that of its segment plus its place there. While segments are dropped only below the start of
the one that is appended to, no entry is written at an LSN that an earlier one reaches, whether it is in the same
segment or another, and whatever was lost when a process stopped (`lsns_in_order`). So the LSN of an entry tells
its segment: it is the last one that starts there or before (`segment_of_lsn`).
-/

namespace Kobzar

open Writer

/-- The LSN at which the entry starts. -/
def Written.lsn (e : Written) : Nat := e.start.toNat + e.offset

/-- The LSN at which it ends. -/
def Written.endLsn (e : Written) : Nat := e.lsn + e.bytes.length

/-- An entry in a file that is so long ends no further behind the start of its segment. -/
theorem Written.In.endLsn_le {P : List U8 → Prop} {e : Written} {bytes : List U8} (h : e.In P bytes) :
    e.endLsn ≤ e.start.toNat + bytes.length := by
  obtain ⟨front, -, hlen, hfront⟩ := h
  have hle := hfront.length_le
  rw [List.length_append] at hle
  simp only [endLsn, lsn]
  omega

/-- The bytes of an entry that has a size are not none. -/
theorem entryBytes_length_pos {digest : Digest} {tx : U64} {entry : WalEntry} {size : U64}
    (h : entrySize entry = .ok size) : 0 < (entryBytes digest tx entry).length := by
  have hsize := entrySize_ok h
  simp only [entryBytes, h, frame_length digest tx h]
  omega

/-- An entry that is written has bytes. -/
theorem Log.entryBytes_pos_of_writeEntry {digest : Digest} {log : Log} {tx : U64} {entry : WalEntry} {rooms : List Room}
    (h : (log.writeEntry digest tx entry rooms).1 = .ok ()) : 0 < (entryBytes digest tx entry).length := by
  cases hsize : entrySize entry with
  | error reason =>
    rw [writeEntry, hsize] at h
    cases h
  | ok size => exact entryBytes_length_pos hsize

namespace WalSystem

variable {digest : Digest} {s t : WalSystem} {wal : Wal} {log' : Log} {event : WalEvent}

/-- Every entry starts where an earlier one ends, or behind it. An entry that is synced ends before the next segment. -/
structure Ordered (s : WalSystem) : Prop where
  length_pos : ∀ e ∈ s.pending ++ s.durable, 0 < e.bytes.length
  order : (s.pending ++ s.durable).Pairwise fun newer older => older.endLsn ≤ newer.lsn
  ahead : ∀ e ∈ s.durable, ∀ lsn, s.disk.HasSegment lsn → e.start < lsn → e.endLsn ≤ lsn.toNat

theorem ordered_start (disk : Disk) : Ordered (start disk) where
  length_pos _ h := absurd h List.not_mem_nil
  order := List.Pairwise.nil
  ahead _ h := absurd h List.not_mem_nil

/-- Every entry ends where the stream of the open log does, or before. -/
theorem Ordered.ends (hs : Ordered s) (hkeeps : s.Keeps fun _ => True) (hlocated : Located s)
    (running : s.wal = some wal) :
    ∀ e ∈ s.pending ++ s.durable, e.endLsn ≤ wal.offsetLsn.toNat + (s.log wal).stream.length := by
  intro e he
  rcases List.mem_append.mp he with he | he
  · obtain ⟨hstart, -, hin⟩ := hkeeps.pending_at running he
    exact hstart ▸ hin.endLsn_le
  · obtain ⟨lsn, hlsn, hle⟩ := hlocated.below e he
    have hstart := BitVec.le_trans hle (hlocated.top wal running lsn hlsn)
    rcases Nat.lt_or_eq_of_le (BitVec.le_def.mp hstart) with hlt | heq
    · -- the entry is in an earlier segment
      exact Nat.le_add_right_of_le (hs.ahead e he wal.offsetLsn (hlocated.hasSegment hkeeps running) hlt)
    · -- the entry is in this segment, which was not dropped
      have hstart : e.start = wal.offsetLsn := BitVec.eq_of_toNat_eq heq
      obtain ⟨hin, hnamed⟩ := hkeeps.durable e he
      have hfile := (hnamed (hstart ▸ hlocated.dropped_le running)).symm
      rw [hstart, hlocated.active hkeeps running] at hfile
      rw [Option.some.inj hfile] at hin
      have hstream := (s.disk.safe_prefix_bytes wal.file).trans (List.prefix_append _ wal.buffer)
      exact hstart ▸ (hin.mono hstream).endLsn_le

/-- What is written starts behind all other entries, and what is lost leaves the others in order. -/
theorem Ordered.passed (hs : Ordered s) (hkeeps : s.Keeps fun _ => True) (hlocated : Located s)
    (running : s.wal = some wal) {given : List U8} {done : Bool} (passes : (s.log wal).Passes given done log')
    (call : WalCall) : Ordered (s.passed (s.log wal) log' (call.written digest (s.log wal))) := by
  have hall : (∀ e ∈ call.written digest (s.log wal) ++ s.pending ++ s.durable, 0 < e.bytes.length) ∧
      (call.written digest (s.log wal) ++ s.pending ++ s.durable).Pairwise fun newer older =>
        older.endLsn ≤ newer.lsn := by
    rcases written_cases digest (s.log wal) call with hnil | ⟨tx, entry, rooms, -, hok, hwritten⟩
    · rw [hnil]
      exact ⟨hs.length_pos, hs.order⟩
    · rw [hwritten, List.append_assoc, List.singleton_append]
      exact ⟨List.forall_mem_cons.mpr ⟨Log.entryBytes_pos_of_writeEntry hok, hs.length_pos⟩,
        List.pairwise_cons.mpr ⟨hs.ends hkeeps hlocated running, hs.order⟩⟩
  have hleft : List.Sublist ((s.passed (s.log wal) log' (call.written digest (s.log wal))).pending ++ s.durable)
      (call.written digest (s.log wal) ++ s.pending ++ s.durable) := List.filter_sublist.append_right _
  refine ⟨fun e he => hall.1 e (hleft.subset he), hall.2.sublist hleft, fun e he lsn hlsn hlt => ?_⟩
  exact hs.ahead e he lsn ((passes.hasSegment lsn).mp hlsn) hlt

/-- A sync keeps the order. -/
theorem Ordered.synced (hs : Ordered s) (hkeeps : s.Keeps fun _ => True) (hlocated : Located s)
    (running : s.wal = some wal) (syncs : (s.log wal).Syncs log') : Ordered (s.synced log') where
  length_pos := hs.length_pos
  order := hs.order
  ahead e he lsn hlsn hlt := by
    have hseg := (syncs.passes.hasSegment lsn).mp hlsn
    rcases List.mem_append.mp he with he | he
    · have hstart := (hkeeps.pending_at running he).1
      exact absurd (hlocated.top wal running lsn hseg) (BitVec.not_le.mpr (hstart ▸ hlt))
    · exact hs.ahead e he lsn hseg hlt

/-- Opening a segment keeps the order, when a new one starts behind all synced entries of earlier segments. -/
theorem Ordered.opened (hs : Ordered s) {lsn : U64} {capacity : Nat} {fault : Option IoError} {disk : Disk}
    (hopen : openByLsn s.disk lsn true capacity fault = .ok (wal, disk))
    (hbehind : ¬s.disk.HasSegment lsn → ∀ e ∈ s.durable, e.start < lsn → e.endLsn ≤ lsn.toNat) :
    Ordered { s with disk, wal := some wal } := by
  obtain ⟨-, -, ⟨-, rfl⟩ | ⟨hnone, -, rfl⟩⟩ := openByLsn_ok hopen
  · exact ⟨hs.length_pos, hs.order, hs.ahead⟩
  · refine ⟨hs.length_pos, hs.order, fun e he other hother hlt => ?_⟩
    rcases Disk.hasSegment_create.mp hother with rfl | hother
    · exact hbehind hnone e he hlt
    · exact hs.ahead e he other hother hlt

/-- Every step keeps the order. -/
theorem Ordered.step (hs : Ordered s) (hkeeps : s.Keeps fun _ => True) (hlocated : Located s) (h : Steps digest s event t)
    (hlisted : s.Listed event) : Ordered t := by
  cases h with
  | idle => exact hs
  | unopened => exact hs
  | passed running passes gives ok => exact hs.passed hkeeps hlocated running passes _
  | synced running syncs ok => exact hs.synced hkeeps hlocated running syncs
  | cut running syncs ok ends opened =>
    -- the new segment is behind all entries
    refine (hs.synced hkeeps hlocated running syncs).opened opened fun _ e he _ => ?_
    exact ends ▸ hs.ends hkeeps hlocated running e he
  | dropped bound readDir faults running =>
    refine ⟨hs.length_pos, hs.order, fun e he lsn hlsn hlt => hs.ahead e he lsn ?_ hlt⟩
    obtain ⟨file, hfile⟩ := Disk.hasSegment_iff.mp hlsn
    rcases (dropFilesBeforeLsn_spec s.disk bound readDir faults).2 (segmentName lsn) with heq | ⟨-, hnone⟩
    · exact Disk.hasSegment_iff.mpr ⟨file, heq ▸ hfile⟩
    · cases hfile.symm.trans hnone
  | stopped keep =>
    exact ⟨fun e he => hs.length_pos e (List.mem_append_right _ he), (List.pairwise_append.mp hs.order).2.1, hs.ahead⟩
  | opened closed opened =>
    obtain ⟨latest, hlatest, hopen⟩ := bind_eq_ok.mp opened
    refine hs.opened hopen fun hnone e _ hlt => ?_
    -- a segment that is not there yet is opened at 0, and none starts before
    rcases (hlocated.latest hlisted hlatest).2 with rfl | hseg
    · exact absurd hlt (Nat.not_lt_zero _)
    · exact absurd hseg hnone

/-- In every run whose bounds are not above the start of the open log, the entries are in order. -/
theorem ordered_run (h : WalSystem.Run digest DropsBehind .empty s) :
    (s.Keeps fun _ => True) ∧ Located s ∧ Ordered s := by
  refine Runs.Reaches.inv (fun s => (s.Keeps fun _ => True) ∧ Located s ∧
    Ordered s) (fun s event t hs hguard hstep => ?_) h
    ⟨keeps_start _ .empty, located_start, ordered_start .empty⟩
  obtain ⟨hlisted, rfl⟩ := hstep
  obtain ⟨hkeeps, hlocated, hordered⟩ := hs
  have hsteps := hkeeps.steps digest event
  exact ⟨hkeeps.next digest event, hlocated.step hkeeps hsteps hguard hlisted,
    hordered.step hkeeps hlocated hsteps hlisted⟩

end WalSystem

open WalSystem

/-- In every run from an empty directory whose bounds are not above the start of the segment appended to: of any
two entries written and not lost, the one written later has the higher LSN and starts where the other one ends, or
behind it; and when the current LSN is asked for, no entry that is not lost then reaches beyond the answer. -/
theorem lsns_in_order (digest : Digest) (s : WalSystem) (hrun : WalSystem.Run digest DropsBehind .empty s) :
    ((s.pending ++ s.durable).Pairwise fun newer older => older.lsn < newer.lsn ∧ older.endLsn ≤ newer.lsn) ∧
      ∀ wal faults lsn log, s.wal = some wal → Log.currentLsn { disk := s.disk, wal } faults = (.ok lsn, log) →
        let t := s.next digest (.call (.currentLsn faults))
        ∀ e ∈ t.pending ++ t.durable, e.endLsn ≤ lsn.toNat := by
  obtain ⟨hkeeps, hlocated, hs⟩ := ordered_run hrun
  constructor
  · refine hs.order.imp_of_mem ?_
    intro newer older _ holder hle
    have hpos := hs.length_pos older holder
    have hends : older.endLsn = older.lsn + older.bytes.length := rfl
    exact ⟨by omega, hle⟩
  · intro wal faults lsn log hwal hok t e he
    obtain ⟨hkeeps', hlocated', ht⟩ := ordered_run (hrun.snoc (.call (.currentLsn faults)) trivial trivial)
    obtain ⟨hdisk, hwal'⟩ := @next_currentLsn digest s log wal hwal faults _ hok
    obtain ⟨done, hpasses, hall⟩ := Log.passes_currentLsn (hkeeps.valid wal hwal) faults
    rw [hok] at hpasses hall
    obtain ⟨-, hnil, hlsn⟩ := hall lsn rfl
    have hends := ht.ends hkeeps' hlocated' hwal' e he
    -- nothing is held any more, so that the stream is what the file has
    have hlog : (s.next digest (.call (.currentLsn faults))).log log.wal = log := by rw [WalSystem.log, hdisk]
    have hstream : log.stream = log.disk.bytes wal.file := by
      rw [Log.stream, hnil, List.append_nil]
      exact congrArg log.disk.bytes hpasses.file
    have hoffset : log.wal.offsetLsn = wal.offsetLsn := hpasses.offsetLsn
    rw [hlog, hstream, hoffset] at hends
    exact Nat.le_trans hends (Nat.le_of_eq hlsn.symm)

/-- A commit written, a cut behind it, a rollback written: the rollback is at the LSN where the commit ends. -/
theorem lsns_in_order_after_cut :
    let s := ((openedSystem.next zeroDigest (.call (.writeEntry 1 .commit []))).next zeroDigest
      (.call (.cutWal .none))).next zeroDigest (.call (.writeEntry 2 .rollback []))
    s.pending.map Written.lsn = [64] ∧ s.durable.map Written.endLsn = [64] ∧
      (s.pending ++ s.durable).Pairwise fun newer older => older.lsn < newer.lsn ∧ older.endLsn ≤ newer.lsn := by
  intro s
  have hopened : WalSystem.Run zeroDigest DropsBehind .empty openedSystem := run_openedSystem trivial
  have hrun : WalSystem.Run zeroDigest DropsBehind .empty s :=
    ((hopened.snoc (.call (.writeEntry 1 .commit [])) trivial trivial).snoc (.call (.cutWal .none)) trivial
      trivial).snoc (.call (.writeEntry 2 .rollback [])) trivial trivial
  exact ⟨by decide +kernel, by decide +kernel, (lsns_in_order zeroDigest s hrun).1⟩

end Kobzar
