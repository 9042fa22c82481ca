import Kobzar.Wal.Journal
import Kobzar.Wal.Order

/-!
# The log refines a journal

What the open log and the segments hold is one journal that is appended to: the write of an entry appends a front
of its frame, and what the device refuses is left out; a sync or a cut that succeeds makes all of it safe, a stop
loses what is behind some place that is not safe, and nothing else changes it (`log_refines_journal`). So what was
in the log when it was synced is read from the segments ever after, in front, as long as these are not dropped
(`synced_log_is_read`).
-/

namespace Kobzar

open Writer Journals

/-! ## The refinement -/

namespace WalSystem

variable {digest : Digest} {s t : WalSystem} {j : Journal U8} {wal : Wal} {event : WalEvent}

/-- What the open log holds back. -/
def held (s : WalSystem) : List U8 :=
  match s.wal with
  | some wal => wal.buffer
  | none => []

/-- The disk and the open log of the system hold the journal. -/
def Refines (s : WalSystem) (j : Journal U8) : Prop := s.disk.Holds s.dropped s.held j

/-- How many bytes the device has refused the open log. -/
def refused (s : WalSystem) : Nat :=
  match s.wal with
  | some wal => wal.refused
  | none => 0

/-- The operations of the journal that an event may do, from one state to the next. A call that syncs the log syncs
the journal; any other appends what it gives to the log and leaves out what the device refuses then. -/
def EventOps (digest : Digest) (s t : WalSystem) : WalEvent → List (Op U8) → Prop
  | .call call, ops =>
    match s.wal with
    | some wal =>
      if call.syncs (s.log wal) then ops = [.sync]
      else ∃ given kept, ops = [.append given, .leaveOut kept (t.refused - s.refused)] ∧
        call.Gives digest (s.log wal) given
    | none => ops = []
  | .stop _, ops => ∃ kept, ops = [.lose kept]
  | .openLatest .., ops => ops = []

/-- The operation of a call that syncs the log. -/
theorem eventOps_synced {call : WalCall} (running : s.wal = some wal) (ok : call.syncs (s.log wal) = true) :
    EventOps digest s t (.call call) [.sync] := by
  simp only [EventOps, running, ok, if_true]

/-- The operations of any other call. -/
theorem eventOps_passed {call : WalCall} (running : s.wal = some wal) (ok : call.syncs (s.log wal) = false)
    {given : List U8} (gives : call.Gives digest (s.log wal) given) (kept : Nat) :
    EventOps digest s t (.call call) [.append given, .leaveOut kept (t.refused - s.refused)] := by
  simp only [EventOps, running, ok]
  exact ⟨given, kept, rfl, gives⟩

/-- The journal ends in the segment of the open log. -/
theorem Refines.endsIn (h : s.Refines j) (hkeeps : s.Keeps fun _ => True) (hs : Located s) (running : s.wal = some wal) :
    s.disk.Holds s.dropped wal.buffer j ∧ s.disk.EndsIn wal.buffer j wal.offsetLsn wal.file := by
  have hheld : s.held = wal.buffer := by rw [held, running]
  have hholds : s.disk.Holds s.dropped wal.buffer j := hheld ▸ h
  exact ⟨hholds, hholds.endsIn (hs.active hkeeps running) (hs.top wal running)⟩

/-- Opening the last segment, or the first one when there is none, leaves the journal. -/
theorem Refines.opened (h : s.disk.Holds s.dropped [] j) {latest : U64} {capacity : Nat} {fault : Option IoError}
    {disk : Disk} (htop : ∀ lsn, s.disk.HasSegment lsn → lsn ≤ latest)
    (hfound : latest = 0 ∨ s.disk.HasSegment latest)
    (hopen : openByLsn s.disk latest true capacity fault = .ok (wal, disk)) :
    Refines { s with disk, wal := some wal } j := by
  have hheld : Refines { s with disk, wal := some wal } j ↔ disk.Holds s.dropped wal.buffer j := Iff.rfl
  rw [hheld]
  obtain ⟨-, hbuffer, ⟨-, rfl⟩ | ⟨hnone, -, rfl⟩⟩ := openByLsn_ok hopen
  · rw [hbuffer]
    exact h
  · -- there was no segment
    have hzero := hfound.resolve_right hnone
    have hempty : ∀ other, ¬s.disk.HasSegment other := by
      intro other hother
      have hle := htop other hother
      rw [hzero] at hle hnone
      exact hnone (BitVec.le_antisymm hle (Nat.zero_le other.toNat) ▸ hother)
    rw [hbuffer]
    rcases h.last with ⟨hcontent, -⟩ | ⟨last, file, hends⟩
    · refine h.create hnone ?_ (fun other hother => absurd hother (hempty other)) fun last file hends => ?_
      · rw [hcontent, hzero]
        rfl
      · exact absurd (Disk.hasSegment_iff.mpr ⟨file, hends.lookup⟩) (hempty last)
    · exact absurd (Disk.hasSegment_iff.mpr ⟨file, hends.lookup⟩) (hempty last)

/-- A cut goes on behind the journal that it has synced. -/
theorem Refines.cut (h : s.Refines j) (hkeeps : s.Keeps fun _ => True) (hs : Located s) (running : s.wal = some wal)
    {log' : Log} (syncs : (s.log wal).Syncs log') {lsn : U64}
    (ends : lsn.toNat = wal.offsetLsn.toNat + (s.log wal).stream.length)
    {capacity : Nat} {fault : Option IoError} {wal' : Wal} {disk : Disk}
    (opened : openByLsn log'.disk lsn true capacity fault = .ok (wal', disk)) :
    Refines { s.synced log' with disk, wal := some wal' } (j.step .sync) := by
  obtain ⟨hholds, hends⟩ := h.endsIn hkeeps hs running
  have hsynced : log'.disk.Holds s.dropped [] (j.step .sync) := Disk.Holds.syncs hholds syncs hends
  have hheld : Refines { s.synced log' with disk, wal := some wal' } (j.step .sync) ↔
    disk.Holds s.dropped wal'.buffer (j.step .sync) := Iff.rfl
  rw [hheld]
  obtain ⟨-, hbuffer, ⟨-, rfl⟩ | ⟨hnone, -, rfl⟩⟩ := openByLsn_ok opened
  · rw [hbuffer]
    exact hsynced
  · rw [hbuffer]
    refine hsynced.create hnone ?_ (fun other hother => ?_) fun last file hlast => ?_
    · rw [Journal.content_sync, hends.length, ends]
      rfl
    · have hle : wal.offsetLsn ≤ lsn := by
        rw [BitVec.le_def]
        omega
      refine BitVec.lt_of_le_ne
        (BitVec.le_trans (hs.top wal running other ((syncs.passes.hasSegment other).mp hother)) hle) ?_
      rintro rfl
      exact hnone hother
    · -- the last segment is the one that was cut
      have hactive : log'.disk.dir.lookup (segmentName wal.offsetLsn) = some wal.file :=
        syncs.passes.dir ▸ hs.active hkeeps running
      obtain ⟨-, rfl⟩ := hlast.eq hactive fun other hother =>
        hs.top wal running other ((syncs.passes.hasSegment other).mp hother)
      exact syncs.safe.trans syncs.bytes.symm

/-- A step whose bound, if it has one, is not above the start of the open log does its operations of the journal. -/
theorem Refines.step (h : s.Refines j) (hkeeps : s.Keeps fun _ => True) (hs : Located s) (hsteps : Steps digest s event t)
    (hguard : DropsBehind s event) (hlisted : s.Listed event) :
    ∃ ops, EventOps digest s t event ops ∧ t.Refines (j.run ops) := by
  cases hsteps with
  | idle closed => exact ⟨[], by simp only [EventOps, closed], h⟩
  | unopened => exact ⟨[], rfl, h⟩
  | @passed call wal log' given done running passes gives ok =>
    obtain ⟨hholds, hends⟩ := h.endsIn hkeeps hs running
    obtain ⟨kept, hpassed⟩ := Disk.Holds.passes hholds passes hends
    have hrefused : s.refused = wal.refused := by rw [refused, running]
    refine ⟨_, eventOps_passed running ok gives kept, ?_⟩
    rw [hrefused]
    exact hpassed
  | @synced call wal log' running syncs ok =>
    obtain ⟨hholds, hends⟩ := h.endsIn hkeeps hs running
    refine ⟨_, eventOps_synced running ok, ?_⟩
    have hsynced : log'.disk.Holds s.dropped [] (j.step .sync) := Disk.Holds.syncs hholds syncs hends
    rw [← syncs.buffer] at hsynced
    exact hsynced
  | cut running syncs ok ends opened =>
    exact ⟨_, eventOps_synced running ok, h.cut hkeeps hs running syncs ends opened⟩
  | @dropped wal bound readDir faults running =>
    obtain ⟨hfiles, hdir⟩ := dropFilesBeforeLsn_spec s.disk bound readDir faults
    have gives : WalCall.Gives digest (s.log wal) (.dropFilesBeforeLsn bound readDir faults) [] := rfl
    refine ⟨_, eventOps_passed running rfl gives 0, ?_⟩
    have hrefused : ∀ disk dropped, ({ s with disk, dropped } : WalSystem).refused - s.refused = 0 :=
      fun _ _ => Nat.sub_self _
    rw [hrefused, Journal.run, List.foldl_cons, List.foldl_cons, List.foldl_nil, Journal.step_append_nil,
      Journal.step_leaveOut_zero]
    exact Disk.Holds.drop h hfiles hdir (hs.hasSegment hkeeps running) (hs.top wal running) (hguard wal running)
  | stopped keep =>
    obtain ⟨n, hcrash⟩ := Disk.Holds.crash h keep
    exact ⟨[.lose n], ⟨n, rfl⟩, hcrash⟩
  | opened closed opened =>
    obtain ⟨latest, hlatest, hopen⟩ := bind_eq_ok.mp opened
    obtain ⟨htop, hfound⟩ := hs.latest hlisted hlatest
    have hholds : s.disk.Holds s.dropped s.held j := h
    rw [held, closed] at hholds
    exact ⟨[], rfl, Refines.opened hholds htop hfound hopen⟩

/-- Runs whose bounds are not above the start of the open log. -/
abbrev BehindRun (digest : Digest) : WalSystem → WalSystem → Prop :=
  Runs.Reaches DropsBehind fun s event t => s.Listed event ∧ s.next digest event = t

/-- Every run does operations of the journal. -/
theorem refines_run (h : BehindRun digest s t) (hkeeps : s.Keeps fun _ => True) (hs : Located s)
    (hrefines : s.Refines j) : (t.Keeps fun _ => True) ∧ Located t ∧ ∃ ops, t.Refines (j.run ops) := by
  refine Runs.Reaches.inv (fun t => (t.Keeps fun _ => True) ∧ Located t ∧ ∃ ops, t.Refines (j.run ops))
    (fun t event u ht hguard hstep => ?_) h ⟨hkeeps, hs, [], hrefines⟩
  obtain ⟨hlisted, rfl⟩ := hstep
  obtain ⟨hkeeps, hs, ops, hrefines⟩ := ht
  have hsteps := hkeeps.steps digest event
  obtain ⟨more, -, hnext⟩ := hrefines.step hkeeps hs hsteps hguard hlisted
  refine ⟨hkeeps.next digest event, hs.step hkeeps hsteps hguard hlisted, ops ++ more, ?_⟩
  rw [Journal.run_append]
  exact hnext

/-- An entry that was not dropped stands in the journal at its LSN. -/
theorem Refines.entry (h : s.Refines j) (hkeeps : s.Keeps fun _ => True) (hs : Located s) {e : Written}
    (he : e ∈ s.pending ++ s.durable) (hdropped : s.dropped ≤ e.start.toNat) : e.bytes <+: j.content.drop e.lsn := by
  have hin : e.In (fun _ => True) (j.content.drop e.start.toNat) := by
    rcases List.mem_append.mp he with he | he
    · obtain ⟨wal, running, hstart, -, hin⟩ := hkeeps.pending e he
      rw [hstart, (h.endsIn hkeeps hs running).2.drop_eq]
      exact hin
    · obtain ⟨hsafe, hnamed⟩ := hkeeps.durable e he
      exact (hsafe.mono (s.disk.safe_prefix_bytes e.file)).mono (Disk.Holds.stands h (hnamed hdropped) hdropped)
  have hdrop := hin.drop
  rwa [List.drop_drop] at hdrop

/-! ## Segments stay -/

/-- Opening a segment leaves the others. -/
theorem hasSegment_of_openByLsn {disk disk' : Disk} {lsn start : U64} {capacity : Nat} {fault : Option IoError}
    (h : openByLsn disk lsn true capacity fault = .ok (wal, disk')) (hstart : disk.HasSegment start) :
    disk'.HasSegment start := by
  obtain ⟨file, hfile⟩ := Disk.hasSegment_iff.mp hstart
  exact Disk.hasSegment_iff.mpr ⟨file, (lookup_of_openByLsn h hfile).1⟩

/-- A step drops no segment at the highest bound or above it. -/
theorem hasSegment_step (h : Steps digest s event t) :
    s.dropped ≤ t.dropped ∧ ∀ lsn, s.disk.HasSegment lsn → t.dropped ≤ lsn.toNat → t.disk.HasSegment lsn := by
  cases h with
  | idle => exact ⟨Nat.le_refl _, fun _ hlsn _ => hlsn⟩
  | unopened => exact ⟨Nat.le_refl _, fun _ hlsn _ => hlsn⟩
  | passed running passes gives ok => exact ⟨Nat.le_refl _, fun lsn hlsn _ => (passes.hasSegment lsn).mpr hlsn⟩
  | synced running syncs ok => exact ⟨Nat.le_refl _, fun lsn hlsn _ => (syncs.passes.hasSegment lsn).mpr hlsn⟩
  | cut running syncs ok ends opened =>
    exact ⟨Nat.le_refl _, fun lsn hlsn _ => hasSegment_of_openByLsn opened ((syncs.passes.hasSegment lsn).mpr hlsn)⟩
  | dropped bound readDir faults running =>
    refine ⟨Nat.le_max_left _ _, fun lsn hlsn hle => ?_⟩
    obtain ⟨file, hfile⟩ := Disk.hasSegment_iff.mp hlsn
    have hbound := Nat.le_trans (Nat.le_max_right _ _) hle
    exact Disk.hasSegment_iff.mpr ⟨file, (lookup_dropFiles hbound readDir faults).trans hfile⟩
  | stopped keep => exact ⟨Nat.le_refl _, fun _ hlsn _ => hlsn⟩
  | opened closed opened =>
    obtain ⟨latest, -, hopen⟩ := bind_eq_ok.mp opened
    exact ⟨Nat.le_refl _, fun _ hlsn _ => hasSegment_of_openByLsn hopen hlsn⟩

/-- Nor does a run. -/
theorem hasSegment_run (h : BehindRun digest s t) (hkeeps : s.Keeps fun _ => True) {lsn : U64}
    (hlsn : s.disk.HasSegment lsn) : s.dropped ≤ t.dropped ∧ (t.dropped ≤ lsn.toNat → t.disk.HasSegment lsn) := by
  refine (Runs.Reaches.inv (fun t => (t.Keeps fun _ => True) ∧ s.dropped ≤ t.dropped ∧
    (t.dropped ≤ lsn.toNat → t.disk.HasSegment lsn)) (fun t event u ht _ hstep => ?_) h
      ⟨hkeeps, Nat.le_refl _, fun _ => hlsn⟩).2
  obtain ⟨-, rfl⟩ := hstep
  obtain ⟨hkeeps, hle, hseg⟩ := ht
  obtain ⟨hle', hseg'⟩ := hasSegment_step (hkeeps.steps digest event)
  exact ⟨hkeeps.next digest event, Nat.le_trans hle hle',
    fun hdropped => hseg' lsn (hseg (Nat.le_trans hle' hdropped)) hdropped⟩

end WalSystem

open WalSystem

/-- In every run from an empty directory whose bounds are not above the start of the segment appended to: the
system holds what one journal holds after some operations; whatever the journal it holds, each event that is
admitted does its operations of this one; and what is read of the segments one behind another, from one on that
starts where segments were dropped or behind it, with what the open log holds back, is the journal from there
on. -/
theorem log_refines_journal (digest : Digest) (s : WalSystem) (hrun : WalSystem.Run digest DropsBehind .empty s) :
    (∃ ops, s.Refines (Journal.empty.run ops)) ∧
      ∀ j, s.Refines j →
        (∀ event, DropsBehind s event → s.Listed event →
          ∃ ops, EventOps digest s (s.next digest event) event ops ∧ (s.next digest event).Refines (j.run ops)) ∧
        ∀ lsn, s.disk.HasSegment lsn → s.dropped ≤ lsn.toNat →
          s.disk.readFrom lsn ++ s.held = j.content.drop lsn.toNat := by
  obtain ⟨hkeeps, hs, hops⟩ := refines_run hrun (keeps_start _ .empty) located_start Disk.holds_empty
  refine ⟨hops, fun j hj => ⟨fun event hguard hlisted => ?_, fun lsn hlsn hdropped => ?_⟩⟩
  · exact hj.step hkeeps hs (hkeeps.steps digest event) hguard hlisted
  · exact Disk.Holds.readFrom hj hs.names hlsn hdropped

/-- A commit written and a cut behind it: both segments hold one journal. -/
theorem log_refines_journal_after_cut :
    let s := (openedSystem.next zeroDigest (.call (.writeEntry 1 .commit []))).next zeroDigest (.call (.cutWal .none))
    ∃ j, s.Refines j ∧ s.disk.readFrom 0 ++ s.held = j.content.drop (0 : U64).toNat := by
  intro s
  have hopened : WalSystem.Run zeroDigest DropsBehind .empty openedSystem := run_openedSystem trivial
  have hrun : WalSystem.Run zeroDigest DropsBehind .empty s :=
    (hopened.snoc (.call (.writeEntry 1 .commit [])) trivial trivial).snoc (.call (.cutWal .none)) trivial trivial
  have hlookup : s.disk.dir.lookup (segmentName 0) = some 0 := by decide +kernel
  have hdropped : s.dropped ≤ (0 : U64).toNat := by decide +kernel
  obtain ⟨⟨ops, hops⟩, hall⟩ := log_refines_journal zeroDigest s hrun
  exact ⟨_, hops, (hall _ hops).2 0 (Disk.hasSegment_iff.mpr ⟨0, hlookup⟩) hdropped⟩

/-- After a sync that succeeds, whatever happens then: from every segment on that no bound was above, what was in
the log is read, in front of what was written later; and each entry written and not lost before the sync is read at
its LSN. -/
theorem synced_log_is_read (digest : Digest) (s t : WalSystem) (hrun : WalSystem.Run digest DropsBehind .empty s)
    (wal : Wal) (hwal : s.wal = some wal) (faults : WalFaults)
    (hsync : (Log.sync { disk := s.disk, wal } faults).1 = .ok ())
    (hlater : BehindRun digest (s.next digest (.call (.sync faults))) t) (lsn : U64) (hlsn : s.disk.HasSegment lsn)
    (hdropped : t.dropped ≤ lsn.toNat) :
    s.disk.readFrom lsn ++ s.held <+: t.disk.readFrom lsn ∧
      ∀ e ∈ s.pending ++ s.durable, lsn ≤ e.start →
        e.bytes <+: (t.disk.readFrom lsn).drop (e.lsn - lsn.toNat) := by
  obtain ⟨hkeeps, hs, ops, hrefines⟩ := refines_run hrun (keeps_start _ .empty) located_start Disk.holds_empty
  generalize Journal.empty.run ops = j at hrefines
  have hsteps := hkeeps.steps digest (.call (.sync faults))
  have hsynced : (s.next digest (.call (.sync faults))).Refines (j.run [.sync]) := by
    have hok : WalCall.syncs (s.log wal) (.sync faults) = true := by
      rw [WalCall.syncs, hsync]
      rfl
    obtain ⟨ops, hops, hsynced⟩ := hrefines.step hkeeps hs hsteps trivial trivial
    simp only [EventOps, hwal, hok, if_true] at hops
    rwa [hops] at hsynced
  obtain ⟨-, ht, more, hafter⟩ :=
    refines_run hlater (hkeeps.next digest _) (hs.step hkeeps hsteps trivial trivial) hsynced
  have hrun' : BehindRun digest s t := Relation.ReflTransGen.head ⟨.call (.sync faults), trivial, trivial, rfl⟩ hlater
  obtain ⟨hle, hseg⟩ := hasSegment_run hrun' hkeeps hlsn
  -- all of the journal was safe when it was synced
  have hsafe : j.content <+: ((j.run [.sync]).run more).safe := (j.run [.sync]).safe_prefix_run more
  have hread : j.content.drop lsn.toNat <+: t.disk.readFrom lsn :=
    (hsafe.drop _).trans (Disk.Holds.safe_prefix_readFrom hafter ht.names (hseg hdropped) hdropped)
  refine ⟨?_, fun e he hstart => ?_⟩
  · rw [Disk.Holds.readFrom hrefines hs.names hlsn (Nat.le_trans hle hdropped)]
    exact hread
  · have hat := hrefines.entry hkeeps hs he (Nat.le_trans hle (Nat.le_trans hdropped hstart))
    have hbehind : lsn.toNat + (e.lsn - lsn.toNat) = e.lsn :=
      Nat.add_sub_of_le (Nat.le_trans hstart (Nat.le_add_right _ _))
    rw [← hbehind, ← List.drop_drop] at hat
    exact hat.trans (hread.drop _)

/-- A commit written and synced, a rollback written behind it, and a stop that loses all that was not synced: the
commit is read. -/
theorem synced_log_is_read_after_stop :
    let s := openedSystem.next zeroDigest (.call (.writeEntry 1 .commit []))
    let synced := s.next zeroDigest (.call (.sync .none))
    let t := (synced.next zeroDigest (.call (.writeEntry 2 .rollback []))).next zeroDigest (.stop fun _ => 0)
    s.disk.readFrom 0 ++ s.held <+: t.disk.readFrom 0 ∧
      ∀ e ∈ s.pending ++ s.durable, (0 : U64) ≤ e.start →
        e.bytes <+: (t.disk.readFrom 0).drop (e.lsn - (0 : U64).toNat) := by
  intro s synced t
  have hopened : WalSystem.Run zeroDigest DropsBehind .empty openedSystem := run_openedSystem trivial
  have hrun : WalSystem.Run zeroDigest DropsBehind .empty s :=
    hopened.snoc (.call (.writeEntry 1 .commit [])) trivial trivial
  have hwritten : BehindRun zeroDigest synced (synced.next zeroDigest (.call (.writeEntry 2 .rollback []))) :=
    (Runs.Reaches.refl _).snoc (.call (.writeEntry 2 .rollback [])) trivial ⟨trivial, rfl⟩
  have hlater : BehindRun zeroDigest synced t := hwritten.snoc (.stop fun _ => 0) trivial ⟨trivial, rfl⟩
  let opened : Wal := { file := 0, buffer := (entryBytes zeroDigest 1 .commit), capacity := 8192, failed := false,
                        refused := 0, offsetLsn := 0 }
  have hwal : s.wal = some opened := by decide +kernel
  have hsync : (Log.sync { disk := s.disk, wal := opened } .none).1 = .ok () := by decide +kernel
  have hlookup : s.disk.dir.lookup (segmentName 0) = some 0 := by decide +kernel
  have hdropped : t.dropped ≤ (0 : U64).toNat := by decide +kernel
  exact synced_log_is_read zeroDigest s t hrun _ hwal .none hsync hlater 0
    (Disk.hasSegment_iff.mpr ⟨0, hlookup⟩) hdropped

end Kobzar
