import Kobzar.Wal.System

/-!
# The segment that the log appends to

While segments are dropped only below the start of the one that is appended to, this one stays in the directory,
above all others, so that a new process opens it again and finds in it what was synced (`drop_keeps_live_log`). A
bound between its start and the current LSN removes it under the log (`drop_loses_live_log`).
-/

namespace Kobzar

open Writer

/-! ## The latest segment -/

/-- A loop over names that are all read, whose passes do not fail, comes to the end of the listing. -/
theorem whileLsn_complete {σ : Type} {body : U64 → σ → Except IoError Unit × σ}
    (hbody : ∀ lsn s, (body lsn s).1 = .ok ()) {readDir : ReadDir} {s : σ}
    (hread : ∀ name, .ok name ∈ readDir → lsnOf name ≠ none)
    (hok : (whileLsn body readDir s).1 = .ok ()) : ∃ entries : List FileName, readDir = entries.map .ok := by
  induction readDir generalizing s with
  | nil => exact ⟨[], rfl⟩
  | cons entry rest ih =>
    unfold whileLsn at hok
    cases entry with
    | error fault =>
      simp only [nextLsn] at hok
      cases hok
    | ok name =>
      obtain ⟨lsn, hlsn⟩ := Option.ne_none_iff_exists'.mp (hread name List.mem_cons_self)
      have hpass := hbody lsn s
      rcases hrun : body lsn s with ⟨fault | _, s'⟩
      · rw [hrun] at hpass
        cases hpass
      · simp only [nextLsn, hlsn, hrun] at hok
        obtain ⟨entries, rfl⟩ := ih (fun other h => hread other (List.mem_cons_of_mem _ h)) hok
        exact ⟨name :: entries, rfl⟩

/-- In a directory of segments only, `latest_file_lsn` finds the last of them, or 0. -/
theorem latestFileLsn_of_segments {disk : Disk} (hnames : ∀ name ∈ disk.dir, ∃ lsn, name = segmentName lsn)
    {readDir : ReadDir} (hlists : disk.Lists readDir) {latest : U64}
    (h : latestFileLsn (.ok readDir) = .ok latest) :
    (∀ lsn, disk.HasSegment lsn → lsn ≤ latest) ∧ (latest = 0 ∨ disk.HasSegment latest) := by
  obtain ⟨hdir, hall⟩ := hlists
  have hread : ∀ name, .ok name ∈ readDir → lsnOf name ≠ none := by
    intro name hname
    obtain ⟨other, rfl⟩ := hnames name (hdir name hname)
    rw [lsnOf_segmentName]
    exact Option.some_ne_none other
  have hok : (whileLsn raiseMax readDir none).1 = .ok () := by
    obtain ⟨lsns, hstream, h⟩ := bind_eq_ok.mp h
    cases hstream
    obtain ⟨_, hdone, -⟩ := bind_eq_ok.mp h
    exact hdone
  obtain ⟨entries, rfl⟩ := whileLsn_complete (fun _ _ => rfl) hread hok
  obtain ⟨found, hfound, hle, hcase⟩ := latestFileLsn_spec entries
  rw [h] at hfound
  cases hfound
  constructor
  · intro lsn hlsn
    have hmem : segmentName lsn ∈ entries := by
      rcases hall with ⟨fault, hfault⟩ | hall
      · obtain ⟨_, -, heq⟩ := List.mem_map.mp hfault
        cases heq
      · obtain ⟨name, hname, heq⟩ := List.mem_map.mp (hall _ hlsn)
        cases heq
        exact hname
    have hstreamed := mem_streamed_of_front [] (fun other hother => hread other (List.mem_map_of_mem hother)) hmem
      (lsnOf_segmentName lsn)
    rw [List.append_nil] at hstreamed
    exact hle lsn hstreamed
  · refine hcase.imp_right ?_
    intro hstreamed
    obtain ⟨front, name, back, rfl, hname, -⟩ := mem_streamed.mp hstreamed
    have hmem : name ∈ disk.dir := hdir name (by simp)
    obtain ⟨lsn, rfl⟩ := hnames name hmem
    rw [lsnOf_segmentName] at hname
    cases hname
    exact hmem

/-! ## What every run keeps of the directory -/

namespace WalSystem

variable {digest : Digest} {P : List U8 → Prop} {s t : WalSystem} {wal : Wal} {log' : Log} {event : WalEvent}

/-- The directory has segments only. The open log appends to the last of them, and neither what was written and
synced nor what was dropped is above the last segment. -/
structure Located (s : WalSystem) : Prop where
  names : ∀ name ∈ s.disk.dir, ∃ lsn, name = segmentName lsn
  top : ∀ wal, s.wal = some wal → ∀ lsn, s.disk.HasSegment lsn → lsn ≤ wal.offsetLsn
  below : ∀ e ∈ s.durable, ∃ lsn, s.disk.HasSegment lsn ∧ e.start ≤ lsn
  dropped : s.dropped = 0 ∨ ∃ lsn, s.disk.HasSegment lsn ∧ s.dropped ≤ lsn.toNat

theorem located_start : Located (start .empty) where
  names name h := absurd h (AList.notMem_empty name)
  top _ h := by cases h
  below _ h := absurd h List.not_mem_nil
  dropped := Or.inl rfl

/-- No bound above the start of the open log was dropped by. -/
theorem Located.dropped_le (hs : Located s) (running : s.wal = some wal) : s.dropped ≤ wal.offsetLsn.toNat := by
  rcases hs.dropped with hzero | ⟨lsn, hlsn, hle⟩
  · rw [hzero]
    exact Nat.zero_le _
  · exact Nat.le_trans hle (hs.top wal running lsn hlsn)

/-- The open log appends to its segment. -/
theorem Located.active (hs : Located s) (hkeeps : s.Keeps P) (running : s.wal = some wal) :
    s.disk.dir.lookup (segmentName wal.offsetLsn) = some wal.file :=
  hkeeps.named wal running (hs.dropped_le running)

/-- The open log has a segment. -/
theorem Located.hasSegment (hs : Located s) (hkeeps : s.Keeps P) (running : s.wal = some wal) :
    s.disk.HasSegment wal.offsetLsn :=
  Disk.hasSegment_iff.mpr ⟨wal.file, hs.active hkeeps running⟩

/-- Calls that leave the directory leave the segments in place, when what they make durable is in the segment of
the log. -/
theorem Located.same_dir (hs : Located s) (running : s.wal = some wal) (hdir : t.disk.dir = s.disk.dir)
    (hwal : ∀ wal', t.wal = some wal' → wal'.offsetLsn = wal.offsetLsn) (hdropped : t.dropped = s.dropped)
    (hdurable : ∀ e ∈ t.durable, e ∈ s.durable ∨ (s.disk.HasSegment wal.offsetLsn ∧ e.start = wal.offsetLsn)) :
    Located t := by
  have hseg : ∀ lsn, t.disk.HasSegment lsn ↔ s.disk.HasSegment lsn := fun lsn => by
    rw [Disk.HasSegment, Disk.HasSegment, hdir]
  refine ⟨fun name hname => hs.names name (hdir ▸ hname), fun wal' hwal' lsn hlsn => ?_, fun e he => ?_, ?_⟩
  · rw [hwal wal' hwal']
    exact hs.top wal running lsn ((hseg lsn).mp hlsn)
  · rcases hdurable e he with he | ⟨hlast, hstart⟩
    · obtain ⟨lsn, hlsn, hle⟩ := hs.below e he
      exact ⟨lsn, (hseg lsn).mpr hlsn, hle⟩
    · exact ⟨wal.offsetLsn, (hseg _).mpr hlast, BitVec.le_of_eq hstart⟩
  · rw [hdropped]
    rcases hs.dropped with hzero | ⟨lsn, hlsn, hle⟩
    · exact Or.inl hzero
    · exact Or.inr ⟨lsn, (hseg lsn).mpr hlsn, hle⟩

/-- What a sync makes durable is in the segment of the log. -/
theorem Located.synced (hs : Located s) (hkeeps : s.Keeps P) (running : s.wal = some wal)
    (syncs : (s.log wal).Syncs log') : Located (s.synced log') := by
  refine hs.same_dir running syncs.passes.dir ?_ rfl fun e he => ?_
  · rintro _ ⟨⟩
    exact syncs.passes.offsetLsn
  · rcases List.mem_append.mp he with he | he
    · exact Or.inr ⟨hs.hasSegment hkeeps running, (hkeeps.pending_at running he).1⟩
    · exact Or.inl he

/-- Opening a segment that no other is above makes it the last. -/
theorem Located.opened (hs : Located s) {lsn : U64} {capacity : Nat} {fault : Option IoError} {disk : Disk}
    (hopen : openByLsn s.disk lsn true capacity fault = .ok (wal, disk))
    (htop : ∀ other, s.disk.HasSegment other → other ≤ lsn) : Located { s with disk, wal := some wal } := by
  obtain ⟨rfl, -, ⟨hfile, rfl⟩ | ⟨hnone, hfile, rfl⟩⟩ := openByLsn_ok hopen
  · refine ⟨hs.names, ?_, hs.below, hs.dropped⟩
    rintro _ ⟨⟩
    exact htop
  · -- the segment is new
    refine ⟨fun name hname => ?_, ?_, fun e he => ?_, ?_⟩
    · rcases (AList.mem_insert s.disk.dir).mp hname with rfl | hname
      · exact ⟨wal.offsetLsn, rfl⟩
      · exact hs.names name hname
    · rintro _ ⟨⟩ other hother
      rcases Disk.hasSegment_create.mp hother with rfl | hother
      · exact BitVec.le_refl _
      · exact htop other hother
    · obtain ⟨other, hother, hle⟩ := hs.below e he
      exact ⟨other, Disk.hasSegment_create.mpr (Or.inr hother), hle⟩
    · rcases hs.dropped with hzero | ⟨other, hother, hle⟩
      · exact Or.inl hzero
      · exact Or.inr ⟨other, Disk.hasSegment_create.mpr (Or.inr hother), hle⟩

/-- Dropping segments below the start of the open log takes away what is below the bound only. -/
theorem Located.drop (hs : Located s) (hkeeps : s.Keeps P) (running : s.wal = some wal) {bound : U64}
    (hbound : bound ≤ wal.offsetLsn) (readDir : Except String ReadDir) (faults : U64 → Option IoError) :
    Located { s with
      disk := (dropFilesBeforeLsn s.disk bound readDir faults).2, dropped := max s.dropped bound.toNat } := by
  have hdir := (dropFilesBeforeLsn_spec s.disk bound readDir faults).2
  have hactive := (lookup_dropFiles hbound readDir faults).trans (hs.active hkeeps running)
  have hold : ∀ name, name ∈ (dropFilesBeforeLsn s.disk bound readDir faults).2.dir → name ∈ s.disk.dir := by
    intro name hname
    rw [← AList.lookup_isSome] at hname ⊢
    rcases hdir name with heq | ⟨-, hnone⟩
    · rwa [← heq]
    · rw [hnone] at hname
      cases hname
  have hlast : (dropFilesBeforeLsn s.disk bound readDir faults).2.HasSegment wal.offsetLsn :=
    Disk.hasSegment_iff.mpr ⟨wal.file, hactive⟩
  refine ⟨fun name hname => hs.names name (hold name hname), fun wal' hwal' lsn hlsn => ?_, fun e he => ?_, ?_⟩
  · exact hs.top wal' hwal' lsn (hold _ hlsn)
  · obtain ⟨lsn, hlsn, hle⟩ := hs.below e he
    exact ⟨wal.offsetLsn, hlast, BitVec.le_trans hle (hs.top wal running lsn hlsn)⟩
  · exact Or.inr ⟨wal.offsetLsn, hlast, Nat.max_le.mpr ⟨hs.dropped_le running, hbound⟩⟩

/-- A stop leaves the directory as it is. -/
theorem Located.stopped (hs : Located s) (keep : Nat → Nat) : Located (s.stopped keep) where
  names := hs.names
  top _ h := by cases h
  below := hs.below
  dropped := hs.dropped

/-- Every segment is dropped by a bound that is not above the start of the open log. -/
def DropsBehind (s : WalSystem) : WalEvent → Prop
  | .call (.dropFilesBeforeLsn bound _ _) => ∀ wal, s.wal = some wal → bound ≤ wal.offsetLsn
  | _ => True

/-- The segment that is opened is the last one, or the first one when there is none. -/
theorem Located.latest (hs : Located s) {readDir : Except String ReadDir}
    (hlisted : ∀ entries, readDir = .ok entries → s.disk.Lists entries) {latest : U64}
    (hlatest : latestFileLsn readDir = .ok latest) :
    (∀ lsn, s.disk.HasSegment lsn → lsn ≤ latest) ∧ (latest = 0 ∨ s.disk.HasSegment latest) := by
  cases readDir with
  | error text => cases hlatest
  | ok entries => exact latestFileLsn_of_segments hs.names (hlisted entries rfl) hlatest

/-- Every step whose bound, if it has one, is not above the start of the open log keeps the segments in place. -/
theorem Located.step (hs : Located s) (hkeeps : s.Keeps P) (h : Steps digest s event t) (hguard : DropsBehind s event)
    (hlisted : s.Listed event) : Located t := by
  cases h with
  | idle => exact hs
  | unopened => exact hs
  | passed running passes gives ok =>
    refine hs.same_dir running passes.dir ?_ rfl fun e he => Or.inl he
    rintro _ ⟨⟩
    exact passes.offsetLsn
  | synced running syncs ok => exact hs.synced hkeeps running syncs
  | @cut _ wal _ log' lsn _ _ running syncs ok ends opened =>
    -- the new segment starts where the last one ends
    have hsynced := hs.synced hkeeps running syncs
    refine hsynced.opened opened fun other hother => ?_
    have hoffset : log'.wal.offsetLsn = wal.offsetLsn := syncs.passes.offsetLsn
    have hle := hsynced.top log'.wal rfl other hother
    rw [hoffset] at hle
    exact BitVec.le_trans hle (by rw [BitVec.le_def]; omega)
  | dropped bound readDir faults running => exact hs.drop hkeeps running (hguard _ running) readDir faults
  | stopped keep => exact hs.stopped keep
  | opened closed opened =>
    obtain ⟨latest, hlatest, hopen⟩ := bind_eq_ok.mp opened
    exact hs.opened hopen (hs.latest hlisted hlatest).1

end WalSystem

open WalSystem

end Kobzar
