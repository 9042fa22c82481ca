import Kobzar.Wal.Retention

/-!
# Segments tile the LSNs

While no segment is dropped and a stop loses only what was not handed to its file, a segment ends where the next
one starts, and the LSN that `current_lsn` computes never goes back (`segments_tile`).
-/

namespace Kobzar

open Writer

/-! ## Stops that lose nothing of a file -/

namespace WalSystem

/-- Nothing is dropped, and a stop leaves all bytes that were handed to a file. -/
def KeepsFiles (s : WalSystem) : WalEvent → Prop
  | .call (.dropFilesBeforeLsn ..) => False
  | .stop keep => ∀ file f, s.disk.files[file]? = some f → f.recent.length ≤ keep file
  | _ => True

/-- A stop that leaves all bytes handed to a file leaves the disk as it is. -/
theorem crash_eq {disk : Disk} {keep : Nat → Nat}
    (h : ∀ file f, disk.files[file]? = some f → f.recent.length ≤ keep file) : disk.crash keep = disk := by
  have hfiles : (disk.crash keep).files = disk.files := by
    apply List.ext_getElem?
    intro file
    simp only [Disk.crash, List.getElem?_mapIdx]
    cases hfile : disk.files[file]? with
    | none => rfl
    | some f => simp only [Option.map_some, DiskFile.crash, List.take_of_length_le (h file f hfile)]
  rcases disk with ⟨dir, files, named⟩
  simpa only [Disk.crash, Disk.mk.injEq, true_and] using hfiles

end WalSystem

/-! ## Where segments end -/

namespace Disk

variable {disk : Disk}

/-- No two names have the same file. -/
def NamesApart (disk : Disk) : Prop :=
  ∀ name name' file, disk.dir.lookup name = some file → disk.dir.lookup name' = some file → name = name'

/-- A new file is none that has a name already. -/
theorem NamesApart.create (h : disk.NamesApart) (new : FileName) : (disk.create new).NamesApart := by
  intro name name' file hname hname'
  rw [lookup_create] at hname hname'
  split at hname <;> split at hname'
  · rename_i heq heq'
    rw [heq, heq']
  · have := disk.named name' file hname'
    cases hname
    exact absurd this (Nat.lt_irrefl _)
  · have := disk.named name file hname
    cases hname'
    exact absurd this (Nat.lt_irrefl _)
  · exact h name name' file hname hname'

/-- A segment ends where the next one starts. -/
def Tiles (disk : Disk) : Prop :=
  ∀ lsn lsn' file, disk.dir.lookup (segmentName lsn) = some file → disk.HasSegment lsn' → lsn < lsn' →
    (∀ mid, disk.HasSegment mid → lsn < mid → lsn' ≤ mid) → lsn.toNat + (disk.bytes file).length = lsn'.toNat

/-- Some segment ends at an LSN or behind it. -/
def EndsBehind (disk : Disk) (lsn : Nat) : Prop :=
  ∃ start file, disk.dir.lookup (segmentName start) = some file ∧ lsn ≤ start.toNat + (disk.bytes file).length

/-- A segment below another one has a next one. -/
theorem exists_next_segment {lsn lsn' : U64} (h : disk.HasSegment lsn') (hlt : lsn < lsn') :
    ∃ next, disk.HasSegment next ∧ lsn < next ∧ next ≤ lsn' ∧ ∀ mid, disk.HasSegment mid → lsn < mid →
      next ≤ mid := by
  have hex : ∃ n, ∃ mid : U64, mid.toNat = n ∧ disk.HasSegment mid ∧ lsn < mid := ⟨_, lsn', rfl, h, hlt⟩
  classical
  obtain ⟨next, hnext, hseg, hbehind⟩ := Nat.find_spec hex
  refine ⟨next, hseg, hbehind, ?_, fun mid hmid hlow => ?_⟩
  · rw [BitVec.le_def, hnext]
    exact Nat.find_min' hex ⟨lsn', rfl, h, hlt⟩
  · rw [BitVec.le_def, hnext]
    exact Nat.find_min' hex ⟨mid, rfl, hmid, hlow⟩

/-- Among tiling segments one below another ends before the other starts. -/
theorem Tiles.le (ht : disk.Tiles) {lsn lsn' : U64} {file : Nat} (hfile : disk.dir.lookup (segmentName lsn) = some file)
    (h : disk.HasSegment lsn') (hlt : lsn < lsn') : lsn.toNat + (disk.bytes file).length ≤ lsn'.toNat := by
  obtain ⟨next, hseg, hbehind, hle, hleast⟩ := exists_next_segment h hlt
  rw [ht lsn next file hfile hseg hbehind hleast]
  exact hle

end Disk

/-! ## What every run keeps -/

/-- The files of the directory are apart, and its segments tile the LSNs. -/
structure Disk.Tiled (disk : Disk) : Prop where
  apart : disk.NamesApart
  tiles : disk.Tiles

section Tiled

variable {disk disk' : Disk} {log log' : Log}

/-- Appending to the last segment leaves the segments tiling. -/
theorem Disk.Tiled.passes (ht : log.disk.Tiled) {given : List U8} {done : Bool} (h : log.Passes given done log')
    (hactive : log.disk.dir.lookup (segmentName log.wal.offsetLsn) = some log.wal.file)
    (htop : ∀ lsn, log.disk.HasSegment lsn → lsn ≤ log.wal.offsetLsn) : log'.disk.Tiled := by
  constructor
  · intro name name' file hname hname'
    rw [h.dir] at hname hname'
    exact ht.apart name name' file hname hname'
  · intro lsn lsn' file hfile hseg hlt hleast
    rw [h.dir] at hfile
    rw [h.hasSegment] at hseg
    have hne : file ≠ log.wal.file := by
      rintro rfl
      have hlsn := segmentName_inj (ht.apart _ _ _ hfile hactive)
      exact absurd hlt (BitVec.not_lt.mpr (hlsn ▸ htop lsn' hseg))
    have hsame : log'.disk.bytes file = log.disk.bytes file := by rw [Disk.bytes, Disk.bytes, h.others file hne]
    rw [hsame]
    exact ht.tiles lsn lsn' file hfile hseg hlt fun mid hmid => hleast mid ((h.hasSegment mid).mpr hmid)

/-- A new segment where the last one ends leaves the segments tiling. -/
theorem Disk.Tiled.create (ht : disk.Tiled) {lsn : U64} (hnone : ¬ disk.HasSegment lsn)
    (habove : ∀ other, disk.HasSegment other → other < lsn)
    (hends : ∀ last file, disk.dir.lookup (segmentName last) = some file →
      (∀ other, disk.HasSegment other → other ≤ last) →
      last.toNat + (disk.bytes file).length = lsn.toNat) : (disk.create (segmentName lsn)).Tiled := by
  constructor
  · exact ht.apart.create _
  · intro low high file hfile hseg hlt hleast
    -- the new segment is above all others, so that the lower one of two is not new
    have hlow : disk.HasSegment low := by
      rcases Disk.hasSegment_create.mp (Disk.hasSegment_iff.mpr ⟨file, hfile⟩) with rfl | hlow
      · rcases Disk.hasSegment_create.mp hseg with rfl | hhigh
        · exact absurd hlt (BitVec.lt_irrefl _)
        · exact absurd (habove high hhigh) (BitVec.lt_asymm hlt)
      · exact hlow
    have hne : segmentName low ≠ segmentName lsn := by
      intro heq
      exact hnone (segmentName_inj heq ▸ hlow)
    have hkeep : ∀ other, disk.HasSegment other → (disk.create (segmentName lsn)).HasSegment other :=
      fun other hother => Disk.hasSegment_create.mpr (Or.inr hother)
    rw [Disk.lookup_create, if_neg hne] at hfile
    rw [Disk.bytes_create]
    rcases Disk.hasSegment_create.mp hseg with rfl | hhigh
    · refine hends low file hfile fun other hother => BitVec.not_lt.mp ?_
      intro hlt'
      exact absurd (habove other hother) (BitVec.not_lt.mpr (hleast other (hkeep other hother) hlt'))
    · exact ht.tiles low high file hfile hhigh hlt fun mid hmid => hleast mid (hkeep mid hmid)

/-- Opening a segment where the last one ends leaves the segments tiling. -/
theorem Disk.Tiled.cut (ht : log.disk.Tiled) {lsn : U64} {capacity : Nat} {fault : Option IoError} {wal : Wal}
    (syncs : log.Syncs log') (hactive : log.disk.dir.lookup (segmentName log.wal.offsetLsn) = some log.wal.file)
    (htop : ∀ other, log.disk.HasSegment other → other ≤ log.wal.offsetLsn)
    (ends : lsn.toNat = log.wal.offsetLsn.toNat + log.stream.length)
    (opened : openByLsn log'.disk lsn true capacity fault = .ok (wal, disk')) : disk'.Tiled := by
  have htiled := ht.passes syncs.passes hactive htop
  obtain ⟨-, -, ⟨-, hsame⟩ | ⟨hnone, -, hcreate⟩⟩ := openByLsn_ok opened
  · rwa [hsame]
  · rw [hcreate]
    have hle : log.wal.offsetLsn ≤ lsn := by
      rw [BitVec.le_def]
      omega
    have htop' : ∀ other, log'.disk.HasSegment other → other ≤ log.wal.offsetLsn :=
      fun other hother => htop other ((syncs.passes.hasSegment other).mp hother)
    have hlast : log'.disk.HasSegment log.wal.offsetLsn :=
      (syncs.passes.hasSegment _).mpr (Disk.hasSegment_iff.mpr ⟨_, hactive⟩)
    refine htiled.create hnone (fun other hother => ?_) fun last file hfile hlastTop => ?_
    · refine BitVec.lt_of_le_ne (BitVec.le_trans (htop' other hother) hle) ?_
      rintro rfl
      exact hnone hother
    · -- the last segment is the one that was cut
      obtain rfl : last = log.wal.offsetLsn :=
        BitVec.le_antisymm (htop' last (Disk.hasSegment_iff.mpr ⟨file, hfile⟩)) (hlastTop _ hlast)
      rw [syncs.passes.dir, hactive] at hfile
      cases hfile
      rw [syncs.bytes, ends]

/-- Opening the last segment, or the first one if there is none, leaves the segments tiling. -/
theorem Disk.Tiled.opened (ht : disk.Tiled) {latest : U64} {capacity : Nat} {fault : Option IoError} {wal : Wal}
    (last : ∀ lsn, disk.HasSegment lsn → lsn ≤ latest) (found : latest = 0 ∨ disk.HasSegment latest)
    (opened : openByLsn disk latest true capacity fault = .ok (wal, disk')) : disk'.Tiled := by
  obtain ⟨-, -, ⟨-, hsame⟩ | ⟨hnone, -, hcreate⟩⟩ := openByLsn_ok opened
  · rwa [hsame]
  · -- a segment is created only if there is none
    have hempty : ∀ other, ¬ disk.HasSegment other := by
      intro other hother
      have hzero := found.resolve_right hnone
      rw [hzero] at hnone last
      have : other = 0 := BitVec.le_antisymm (last other hother) (Nat.zero_le other.toNat)
      exact hnone (this ▸ hother)
    rw [hcreate]
    exact ht.create hnone (fun other hother => absurd hother (hempty other))
      fun last file hfile _ => absurd (Disk.hasSegment_iff.mpr ⟨file, hfile⟩) (hempty last)

end Tiled

namespace WalSystem

variable {digest : Digest} {s t : WalSystem} {event : WalEvent}

/-- A segment stays, with at least its bytes, when another one is opened. -/
theorem lookup_of_openByLsn {disk disk' : Disk} {lsn start : U64} {capacity : Nat} {fault : Option IoError}
    {wal : Wal} {file : Nat} (h : openByLsn disk lsn true capacity fault = .ok (wal, disk'))
    (hfile : disk.dir.lookup (segmentName start) = some file) :
    disk'.dir.lookup (segmentName start) = some file ∧ disk'.bytes file = disk.bytes file := by
  obtain ⟨-, -, hnames, -, hbytes⟩ := openByLsn_files h
  exact ⟨hnames _ _ hfile, hbytes file⟩

/-- What a run that drops nothing keeps: the entries, the places of the segments, and that they tile. -/
structure Tiled (s : WalSystem) : Prop where
  keeps : s.Keeps fun _ => True
  located : Located s
  disk : s.disk.Tiled

/-- A step that drops nothing and loses only what was not handed to a file keeps it. -/
theorem Tiled.step (hs : Tiled s) (h : Steps digest s event t) (hguard : KeepsFiles s event) (hlisted : s.Listed event) :
    Tiled t := by
  have hdrops : DropsBehind s event := by
    cases event with
    | call call =>
      cases call with
      | dropFilesBeforeLsn => exact hguard.elim
      | _ => trivial
    | _ => trivial
  refine ⟨hs.keeps.step h fun _ _ _ _ _ _ _ => trivial, hs.located.step hs.keeps h hdrops hlisted, ?_⟩
  cases h with
  | idle => exact hs.disk
  | unopened => exact hs.disk
  | passed running passes gives ok =>
    exact Disk.Tiled.passes hs.disk passes (hs.located.active hs.keeps running) (hs.located.top _ running)
  | synced running syncs ok =>
    exact Disk.Tiled.passes hs.disk syncs.passes (hs.located.active hs.keeps running) (hs.located.top _ running)
  | cut running syncs ok ends opened =>
    exact Disk.Tiled.cut hs.disk syncs (hs.located.active hs.keeps running) (hs.located.top _ running) ends opened
  | dropped => exact hguard.elim
  | stopped keep =>
    rw [stopped, crash_eq hguard]
    exact hs.disk
  | opened closed opened =>
    obtain ⟨latest, hlatest, hopen⟩ := bind_eq_ok.mp opened
    obtain ⟨hlast, hfound⟩ := hs.located.latest hlisted hlatest
    exact hs.disk.opened hlast hfound hopen

/-- Such a step leaves some segment end behind each LSN where one did. -/
theorem endsBehind_step (h : Steps digest s event t) (hguard : KeepsFiles s event) {lsn : Nat}
    (hb : s.disk.EndsBehind lsn) : t.disk.EndsBehind lsn := by
  obtain ⟨start, file, hfile, hle⟩ := hb
  have hpasses : ∀ {wal given done log'}, (s.log wal).Passes given done log' →
      log'.disk.dir.lookup (segmentName start) = some file ∧ lsn ≤ start.toNat + (log'.disk.bytes file).length := by
    intro wal given done log' passes
    have hlen : (s.disk.bytes file).length ≤ (log'.disk.bytes file).length := (passes.bytes_prefix file).length_le
    exact ⟨passes.dir ▸ hfile, by omega⟩
  cases h with
  | idle => exact ⟨start, file, hfile, hle⟩
  | unopened => exact ⟨start, file, hfile, hle⟩
  | passed running passes gives ok => exact ⟨start, file, hpasses passes⟩
  | synced running syncs ok => exact ⟨start, file, hpasses syncs.passes⟩
  | cut running syncs ok ends opened =>
    obtain ⟨hfile', hle'⟩ := hpasses syncs.passes
    obtain ⟨hfile'', hbytes⟩ := lookup_of_openByLsn opened hfile'
    exact ⟨start, file, hfile'', hbytes ▸ hle'⟩
  | dropped => exact hguard.elim
  | stopped keep => exact ⟨start, file, by rw [stopped, crash_eq hguard]; exact ⟨hfile, hle⟩⟩
  | opened closed opened =>
    obtain ⟨latest, -, hopen⟩ := bind_eq_ok.mp opened
    obtain ⟨hfile', hbytes⟩ := lookup_of_openByLsn hopen hfile
    exact ⟨start, file, hfile', hbytes ▸ hle⟩

/-- Runs that drop nothing. -/
abbrev KeepingRun (digest : Digest) : WalSystem → WalSystem → Prop :=
  Runs.Reaches KeepsFiles fun s event t => s.Listed event ∧ s.next digest event = t

/-- Every run keeps it. -/
theorem tiled_run (h : KeepingRun digest s t) (hs : Tiled s) : Tiled t := by
  refine Runs.Reaches.inv Tiled (fun s event t hs hguard hstep => ?_) h hs
  obtain ⟨hlisted, rfl⟩ := hstep
  exact hs.step (hs.keeps.steps digest event) hguard hlisted

/-- Every run leaves some segment end behind each LSN where one did. -/
theorem endsBehind_run {lsn : Nat} (h : KeepingRun digest s t) (hs : Tiled s) (hb : s.disk.EndsBehind lsn) :
    t.disk.EndsBehind lsn := by
  refine (Runs.Reaches.inv (fun s => Tiled s ∧ s.disk.EndsBehind lsn) (fun s event t hs hguard hstep => ?_) h
    ⟨hs, hb⟩).2
  obtain ⟨hlisted, rfl⟩ := hstep
  obtain ⟨htiled, hends⟩ := hs
  have hsteps := htiled.keeps.steps digest event
  exact ⟨htiled.step hsteps hguard hlisted, endsBehind_step hsteps hguard hends⟩

/-- An empty directory. -/
theorem tiled_start : Tiled (start .empty) where
  keeps := keeps_start _ .empty
  located := located_start
  disk := by
    constructor
    · intro name _ _ h
      cases h
    · intro lsn _ _ h
      cases h

/-- An LSN that `current_lsn` computes is one that a segment ends behind afterwards, and that no segment ended
behind before. -/
theorem Tiled.currentLsn (h : Tiled s) {wal : Wal} (running : s.wal = some wal) {faults : WalFaults}
    {lsn : U64} {log : Log} (hok : Log.currentLsn (s.log wal) faults = (.ok lsn, log)) :
    log.disk.EndsBehind lsn.toNat ∧ ∀ low, s.disk.EndsBehind low → low ≤ lsn.toNat := by
  have hactive := h.located.active h.keeps running
  obtain ⟨done, hpasses, hall⟩ := Log.passes_currentLsn (h.keeps.valid wal running) faults
  rw [hok] at hpasses hall
  obtain ⟨-, -, hlsn⟩ := hall lsn rfl
  constructor
  · exact ⟨wal.offsetLsn, wal.file, hpasses.dir ▸ hactive, Nat.le_of_eq hlsn⟩
  · rintro low ⟨start, file, hfile, hle⟩
    have hseg : s.disk.HasSegment start := Disk.hasSegment_iff.mpr ⟨file, hfile⟩
    rcases Nat.lt_or_eq_of_le (h.located.top wal running start hseg) with hlt | heq
    · have hends := h.disk.tiles.le hfile (h.located.hasSegment h.keeps running) hlt
      exact Nat.le_trans hle (Nat.le_trans hends (hlsn ▸ Nat.le_add_right _ _))
    · obtain rfl := BitVec.eq_of_toNat_eq heq
      rw [hactive] at hfile
      cases hfile
      rw [hlsn]
      exact Nat.le_trans hle (Nat.add_le_add_left (hpasses.bytes_prefix wal.file).length_le _)

end WalSystem

open WalSystem

/-- In every run from an empty directory in which only the log creates files, that drops no segment and whose stops
lose only what was not handed to a file: each segment ends where the next one starts; the open log appends to the
last segment; an LSN that `current_lsn` computes later is not below one that it computed before; and a cut of an
empty segment, whether it succeeds or not, leaves the directory as it is. -/
theorem segments_tile (digest : Digest) (s : WalSystem) (hrun : WalSystem.Run digest KeepsFiles .empty s) :
    s.disk.Tiles ∧
    (∀ wal, s.wal = some wal → s.disk.dir.lookup (segmentName wal.offsetLsn) = some wal.file ∧
      ∀ lsn, s.disk.HasSegment lsn → lsn ≤ wal.offsetLsn) ∧
    (∀ wal faults lsn log t wal' faults' lsn' log', s.wal = some wal →
      Log.currentLsn { disk := s.disk, wal } faults = (.ok lsn, log) →
        KeepingRun digest (s.next digest (.call (.currentLsn faults))) t → t.wal = some wal' →
          Log.currentLsn { disk := t.disk, wal := wal' } faults' = (.ok lsn', log') → lsn ≤ lsn') ∧
    ∀ wal faults, s.wal = some wal → Log.stream { disk := s.disk, wal } = [] →
      (Log.cutWal { disk := s.disk, wal } faults).2.disk.dir = s.disk.dir := by
  have hs : Tiled s := tiled_run hrun tiled_start
  refine ⟨hs.disk.tiles, fun wal hwal => ⟨hs.located.active hs.keeps hwal, hs.located.top wal hwal⟩, ?_, ?_⟩
  · intro wal faults lsn log t wal' faults' lsn' log' hwal hok hrun' hwal' hok'
    have hnext : Tiled (s.next digest (.call (.currentLsn faults))) :=
      hs.step (hs.keeps.steps digest (.call (.currentLsn faults))) trivial trivial
    have hbehind : (s.next digest (.call (.currentLsn faults))).disk.EndsBehind lsn.toNat := by
      rw [(next_currentLsn hwal hok).1]
      exact (hs.currentLsn hwal hok).1
    have hends := endsBehind_run hrun' hnext hbehind
    exact ((tiled_run hrun' hnext).currentLsn hwal' hok').2 lsn.toNat hends
  · intro wal faults hwal hempty
    rcases Log.cutWal_cases (hs.keeps.valid wal hwal) faults with
      ⟨stop, log', done, hcut, hpasses⟩ | ⟨log', lsn, wal', disk, hcut, hsyncs, hlsn, hopen⟩
    · rw [hcut]
      exact hpasses.dir
    · -- the segment that is opened is the one that was cut
      rw [hcut]
      rw [hempty] at hlsn
      obtain rfl : lsn = wal.offsetLsn := BitVec.eq_of_toNat_eq hlsn
      obtain ⟨-, -, ⟨-, hsame⟩ | ⟨hnone, -, -⟩⟩ := openByLsn_ok hopen
      · simp only [hsame]
        exact hsyncs.passes.dir
      · exact absurd ((hsyncs.passes.hasSegment _).mpr (hs.located.hasSegment hs.keeps hwal)) hnone

/-- A commit written and a cut behind it: the first segment ends at 64, where the second one starts. -/
theorem segments_tile_after_cut :
    let s := (openedSystem.next zeroDigest (.call (.writeEntry 1 .commit []))).next zeroDigest (.call (.cutWal .none))
    (0 : U64).toNat + (s.disk.bytes 0).length = (64 : U64).toNat := by
  intro s
  have hopened : WalSystem.Run zeroDigest KeepsFiles .empty openedSystem := run_openedSystem trivial
  have hrun : WalSystem.Run zeroDigest KeepsFiles .empty s :=
    (hopened.snoc (.call (.writeEntry 1 .commit [])) trivial trivial).snoc (.call (.cutWal .none)) trivial trivial
  have hkeys : s.disk.dir.keys = [segmentName 64, segmentName 0] := by decide +kernel
  refine (segments_tile zeroDigest s hrun).1 0 64 0 (by decide +kernel) ?_ (by decide) fun mid hmid hlt => ?_
  · rw [Disk.HasSegment, AList.mem_keys, hkeys]
    exact List.mem_cons_self
  · rw [Disk.HasSegment, AList.mem_keys, hkeys] at hmid
    rcases List.mem_pair.mp hmid with heq | heq
    · exact BitVec.le_of_eq (segmentName_inj heq).symm
    · rw [segmentName_inj heq] at hlt
      exact absurd hlt (BitVec.lt_irrefl _)

end Kobzar
