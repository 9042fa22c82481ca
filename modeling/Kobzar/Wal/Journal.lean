import Kobzar.Library.Journal
import Kobzar.Wal.Recovery
import Kobzar.Wal.Tiling

/-!
# The segments as one journal

The segments hold one journal, each of them up to where the next one starts, with what the open log holds back
behind the last of them (`Disk.Holds`). Read one behind another they give it (`Disk.Holds.readFrom`). What is done
to the last segment, a new segment and the removal of segments do to it is said here for each.
-/

namespace Kobzar

open Writer Journals

/-! ## The journal of a disk -/

namespace Disk

/-- The next segment behind one that starts at the LSN. -/
def Next (disk : Disk) (lsn next : U64) : Prop :=
  disk.HasSegment next ∧ lsn < next ∧ ∀ mid, disk.HasSegment mid → lsn < mid → next ≤ mid

/-- The journal ends in the last segment, of this LSN and file, with what is held back; what is safe of it is safe
there. -/
structure EndsIn (disk : Disk) (held : List U8) (j : Journal U8) (lsn : U64) (file : Nat) : Prop where
  lookup : disk.dir.lookup (segmentName lsn) = some file
  top : ∀ other, disk.HasSegment other → other ≤ lsn
  starts : lsn.toNat ≤ j.content.length
  drop_eq : j.content.drop lsn.toNat = disk.bytes file ++ held
  safe_le : j.safe.length ≤ lsn.toNat + (disk.safe file).length

/-- The segments that start where segments were dropped or behind it hold the journal, each of them up to where the
next one starts, and all but the last are safe. -/
structure Holds (disk : Disk) (dropped : Nat) (held : List U8) (j : Journal U8) : Prop where
  apart : disk.NamesApart
  full : ∀ lsn next file, disk.dir.lookup (segmentName lsn) = some file → dropped ≤ lsn.toNat →
    disk.Next lsn next →
    disk.bytes file <+: j.content.drop lsn.toNat ∧ lsn.toNat + (disk.bytes file).length = next.toNat ∧
      disk.safe file = disk.bytes file
  last : (j.content = [] ∧ ∀ lsn, ¬disk.HasSegment lsn) ∨ ∃ lsn file, disk.EndsIn held j lsn file

variable {disk : Disk} {dropped : Nat} {held : List U8} {j : Journal U8}

theorem holds_empty : Disk.empty.Holds dropped held .empty where
  apart name _ _ h := by cases h
  full _ _ _ h := by cases h
  last := Or.inl ⟨rfl, fun lsn h => absurd h (AList.notMem_empty (segmentName lsn))⟩

/-- No segment is behind the one that the journal ends in. -/
theorem EndsIn.not_next {lsn next : U64} {file : Nat} (h : disk.EndsIn held j lsn file) : ¬disk.Next lsn next := by
  rintro ⟨hseg, hlt, -⟩
  exact absurd hlt (BitVec.not_lt.mpr (h.top next hseg))

/-- The journal ends in one segment only. -/
theorem EndsIn.eq {lsn lsn' : U64} {file file' : Nat} (h : disk.EndsIn held j lsn file)
    (h' : disk.dir.lookup (segmentName lsn') = some file') (htop : ∀ other, disk.HasSegment other → other ≤ lsn') :
    lsn' = lsn ∧ file' = file := by
  have hlsn : lsn' = lsn :=
    BitVec.le_antisymm (h.top lsn' (hasSegment_iff.mpr ⟨file', h'⟩))
      (htop lsn (hasSegment_iff.mpr ⟨file, h.lookup⟩))
  refine ⟨hlsn, ?_⟩
  rw [hlsn, h.lookup] at h'
  exact (Option.some.inj h').symm

/-- Where the last segment is, the journal ends in it. -/
theorem Holds.endsIn (h : disk.Holds dropped held j) {lsn : U64} {file : Nat}
    (hfile : disk.dir.lookup (segmentName lsn) = some file) (htop : ∀ other, disk.HasSegment other → other ≤ lsn) :
    disk.EndsIn held j lsn file := by
  rcases h.last with ⟨-, hnone⟩ | ⟨lsn', file', hends⟩
  · exact absurd (hasSegment_iff.mpr ⟨file, hfile⟩) (hnone lsn)
  · obtain ⟨rfl, rfl⟩ := hends.eq hfile htop
    exact hends

/-- The journal goes on from the end of the last segment. -/
theorem EndsIn.length {lsn : U64} {file : Nat} (h : disk.EndsIn held j lsn file) :
    j.content.length = lsn.toNat + (disk.bytes file ++ held).length := by
  have hlen := congrArg List.length h.drop_eq
  rw [List.length_drop] at hlen
  have := h.starts
  omega

/-! ## Reading the segments -/

/-- The LSNs of the segments from one on, in order. -/
def segmentsFrom (disk : Disk) (start : U64) : List U64 :=
  (((disk.dir.keys.filterMap lsnOf).filter fun lsn => start.toNat ≤ lsn.toNat).dedup).mergeSort fun lsn lsn' =>
    lsn.toNat ≤ lsn'.toNat

/-- The bytes of a segment. -/
def segmentBytes (disk : Disk) (lsn : U64) : List U8 :=
  match disk.dir.lookup (segmentName lsn) with
  | some file => disk.bytes file
  | none => []

/-- The bytes of the segments from one on, one behind another. -/
def readFrom (disk : Disk) (start : U64) : List U8 := (disk.segmentsFrom start).flatMap disk.segmentBytes

/-- In a directory of segments only, these are the segments that start there or behind it. -/
theorem mem_segmentsFrom (hnames : ∀ name ∈ disk.dir, ∃ lsn, name = segmentName lsn) {start lsn : U64} :
    lsn ∈ disk.segmentsFrom start ↔ disk.HasSegment lsn ∧ start ≤ lsn := by
  simp only [segmentsFrom, List.mem_mergeSort, List.mem_dedup, List.mem_filter, List.mem_filterMap, decide_eq_true_eq]
  refine and_congr_left fun _ => ⟨?_, fun h => ⟨segmentName lsn, AList.mem_keys.mp h, lsnOf_segmentName lsn⟩⟩
  rintro ⟨name, hname, hlsn⟩
  obtain ⟨other, rfl⟩ := hnames name (AList.mem_keys.mpr hname)
  rw [lsnOf_segmentName] at hlsn
  cases hlsn
  exact AList.mem_keys.mpr hname

/-- They are in order. -/
theorem pairwise_segmentsFrom (disk : Disk) (start : U64) : (disk.segmentsFrom start).Pairwise (· < ·) := by
  have hsorted : (disk.segmentsFrom start).Pairwise fun lsn lsn' => lsn.toNat ≤ lsn'.toNat := by
    refine (List.pairwise_mergeSort ?_ ?_ _).imp of_decide_eq_true
    · intro a b c hab hbc
      exact decide_eq_true (Nat.le_trans (of_decide_eq_true hab) (of_decide_eq_true hbc))
    · intro a b
      simpa using Nat.le_total a.toNat b.toNat
  have hnodup : (disk.segmentsFrom start).Nodup := (List.mergeSort_perm _ _).nodup_iff.mpr (List.nodup_dedup _)
  exact hsorted.imp₂ (fun lsn lsn' hle hne => BitVec.lt_of_le_ne hle hne) hnodup

/-- Segments in order, with none left out behind the first, are the journal from where this one starts. -/
theorem Holds.flatMap (h : disk.Holds dropped held j) {first : U64} {others : List U64}
    (horder : (first :: others).Pairwise (· < ·))
    (hsegments : ∀ lsn ∈ first :: others, disk.HasSegment lsn ∧ dropped ≤ lsn.toNat)
    (hall : ∀ lsn, disk.HasSegment lsn → first < lsn → lsn ∈ others) :
    (first :: others).flatMap disk.segmentBytes ++ held = j.content.drop first.toNat := by
  induction others generalizing first with
  | nil =>
    obtain ⟨file, hfile⟩ := hasSegment_iff.mp (hsegments first List.mem_cons_self).1
    have hends := h.endsIn hfile fun other hother => BitVec.not_lt.mp fun hlt =>
      absurd (hall other hother hlt) List.not_mem_nil
    rw [List.flatMap_singleton, hends.drop_eq, segmentBytes, hfile]
  | cons next others ih =>
    obtain ⟨hfirst, horder⟩ := List.pairwise_cons.mp horder
    obtain ⟨hnext, -⟩ := List.pairwise_cons.mp horder
    obtain ⟨hseg, hsegments⟩ := List.forall_mem_cons.mp hsegments
    obtain ⟨file, hfile⟩ := hasSegment_iff.mp hseg.1
    have hbehind : disk.Next first next := by
      refine ⟨(hsegments next List.mem_cons_self).1, hfirst next List.mem_cons_self, fun mid hmid hlt => ?_⟩
      rcases List.mem_cons.mp (hall mid hmid hlt) with rfl | hmem
      · exact BitVec.le_refl _
      · exact Nat.le_of_lt (hnext mid hmem)
    obtain ⟨hstands, hlen, -⟩ := h.full first next file hfile hseg.2 hbehind
    have hrest := ih horder hsegments fun lsn hlsn hlt => by
      rcases List.mem_cons.mp (hall lsn hlsn (Nat.lt_trans hbehind.2.1 hlt)) with rfl | hmem
      · exact absurd hlt (BitVec.lt_irrefl _)
      · exact hmem
    rw [List.flatMap_cons, List.append_assoc, hrest, segmentBytes, hfile, drop_eq_append_drop hstands hlen]

/-- What is read from a segment on, with what is held back, is the journal from where this one starts. -/
theorem Holds.readFrom (h : disk.Holds dropped held j) (hnames : ∀ name ∈ disk.dir, ∃ lsn, name = segmentName lsn)
    {start : U64} (hstart : disk.HasSegment start) (hdropped : dropped ≤ start.toNat) :
    disk.readFrom start ++ held = j.content.drop start.toNat := by
  have hmem : ∀ lsn, lsn ∈ disk.segmentsFrom start ↔
    disk.HasSegment lsn ∧ start ≤ lsn := fun lsn => mem_segmentsFrom hnames
  have horder := disk.pairwise_segmentsFrom start
  have hfirst := (hmem start).mpr ⟨hstart, BitVec.le_refl _⟩
  unfold Disk.readFrom
  generalize disk.segmentsFrom start = lsns at hmem horder hfirst
  cases lsns with
  | nil => exact absurd hfirst List.not_mem_nil
  | cons first others =>
    obtain rfl : start = first := by
      rcases List.mem_cons.mp hfirst with heq | hothers
      · exact heq
      · have hlt := (List.pairwise_cons.mp horder).1 start hothers
        exact absurd hlt (BitVec.not_lt.mpr ((hmem first).mp List.mem_cons_self).2)
    refine h.flatMap horder (fun lsn hlsn => ?_) fun lsn hlsn hlt => ?_
    · obtain ⟨hseg, hle⟩ := (hmem lsn).mp hlsn
      exact ⟨hseg, Nat.le_trans hdropped hle⟩
    · rcases List.mem_cons.mp ((hmem lsn).mpr ⟨hlsn, Nat.le_of_lt hlt⟩) with rfl | hothers
      · exact absurd hlt (BitVec.lt_irrefl _)
      · exact hothers

/-- Every segment from where segments were dropped on holds what the journal has there. -/
theorem Holds.stands (h : disk.Holds dropped held j) {lsn : U64} {file : Nat}
    (hfile : disk.dir.lookup (segmentName lsn) = some file) (hdropped : dropped ≤ lsn.toNat) :
    disk.bytes file <+: j.content.drop lsn.toNat := by
  rcases h.last with ⟨-, hnone⟩ | ⟨top, last, hends⟩
  · exact absurd (hasSegment_iff.mpr ⟨file, hfile⟩) (hnone lsn)
  · rcases Nat.lt_or_eq_of_le (hends.top lsn (hasSegment_iff.mpr ⟨file, hfile⟩)) with hlt | heq
    · obtain ⟨next, hseg, hbehind, -, hleast⟩ :=
        exists_next_segment (hasSegment_iff.mpr ⟨last, hends.lookup⟩) hlt
      exact (h.full lsn next file hfile hdropped ⟨hseg, hbehind, hleast⟩).1
    · obtain rfl := BitVec.eq_of_toNat_eq heq
      rw [hends.lookup] at hfile
      cases hfile
      rw [hends.drop_eq]
      exact List.prefix_append _ _

/-- What is safe of the journal is read from the segments. -/
theorem Holds.safe_prefix_readFrom (h : disk.Holds dropped held j)
    (hnames : ∀ name ∈ disk.dir, ∃ lsn, name = segmentName lsn)
    {start : U64} (hstart : disk.HasSegment start) (hdropped : dropped ≤ start.toNat) :
    j.safe.drop start.toNat <+: disk.readFrom start := by
  have hread := h.readFrom hnames hstart hdropped
  have hfront : j.safe.drop start.toNat <+: disk.readFrom start ++ held := by
    rw [hread]
    exact j.safe_prefix_content.drop start.toNat
  refine List.prefix_of_prefix_length_le hfront (List.prefix_append _ _) ?_
  rcases h.last with ⟨-, hnone⟩ | ⟨top, last, hends⟩
  · exact absurd hstart (hnone start)
  · have hlen := congrArg List.length hread
    have hcontent := hends.length
    have hsafe := hends.safe_le
    have hle := (disk.safe_prefix_bytes last).length_le
    simp only [List.length_append, List.length_drop] at hlen hcontent ⊢
    have hstarts := hends.starts
    have htop := BitVec.le_def.mp (hends.top start hstart)
    omega

/-! ## What the events do to it -/

/-- A change of the last file, and of others only where they are not safe, goes with a change of the journal behind
where this file starts. -/
theorem Holds.change (h : disk.Holds dropped held j) {lsn : U64} {file : Nat} (hends : disk.EndsIn held j lsn file)
    {disk' : Disk} {held' : List U8} {j' : Journal U8} (hdir : disk'.dir = disk.dir)
    (hothers : ∀ other, other ≠ file → disk.safe other = disk.bytes other →
      disk'.bytes other = disk.bytes other ∧ disk'.safe other = disk.safe other)
    (hcontent : j'.content = j.content.take lsn.toNat ++ (disk'.bytes file ++ held'))
    (hsafe : j'.safe.length ≤ lsn.toNat + (disk'.safe file).length) : disk'.Holds dropped held' j' := by
  have hseg : ∀ other, disk'.HasSegment other ↔ disk.HasSegment other := fun other => by
    rw [HasSegment, HasSegment, hdir]
  have hlen : (j.content.take lsn.toNat).length = lsn.toNat := List.length_take_of_le hends.starts
  constructor
  · intro name name' other hname hname'
    rw [hdir] at hname hname'
    exact h.apart name name' other hname hname'
  · rintro low next other hother hdropped ⟨hnext, hlt, hleast⟩
    rw [hdir] at hother
    have hbehind : disk.Next low next :=
      ⟨(hseg next).mp hnext, hlt, fun mid hmid => hleast mid ((hseg mid).mpr hmid)⟩
    have hne : other ≠ file := by
      rintro rfl
      obtain rfl := segmentName_inj (h.apart _ _ _ hother hends.lookup)
      exact hends.not_next hbehind
    obtain ⟨hstands, hlength, hsame⟩ := h.full low next other hother hdropped hbehind
    obtain ⟨hbytes, hsafe'⟩ := hothers other hne hsame
    rw [hbytes, hsafe', hcontent]
    refine ⟨?_, hlength, hsame⟩
    -- the segment ends before the last one starts
    have hle := BitVec.le_def.mp (hends.top next hbehind.1)
    have hfront : disk.bytes other <+: (j.content.take lsn.toNat).drop low.toNat := by
      rw [List.drop_take]
      exact List.prefix_take_iff.mpr ⟨hstands, by omega⟩
    exact hfront.trans ((List.prefix_append _ _).drop low.toNat)
  · refine Or.inr ⟨lsn, file, ?_, fun other hother => hends.top other ((hseg other).mp hother), ?_, ?_, hsafe⟩
    · rw [hdir]
      exact hends.lookup
    · rw [hcontent, List.length_append, hlen]
      exact Nat.le_add_right _ _
    · rw [hcontent, List.drop_left' hlen]

section Log

variable {log log' : Log}

/-- What is given to the log is appended to the journal, and what the device refuses is left out of it. -/
theorem Holds.passes (h : log.disk.Holds dropped log.wal.buffer j) {given : List U8} {done : Bool}
    (hpasses : log.Passes given done log') (hends : log.disk.EndsIn log.wal.buffer j log.wal.offsetLsn log.wal.file) :
    ∃ kept, log'.disk.Holds dropped log'.wal.buffer
      (j.run [.append given, .leaveOut kept (log'.wal.refused - log.wal.refused)]) := by
  obtain ⟨out, gap, hbytes, hparts, hrefused, -⟩ := hpasses.parts
  obtain ⟨front, hfront⟩ : ∃ front, front = j.content.take log.wal.offsetLsn.toNat ++ log'.disk.bytes log.wal.file :=
    ⟨_, rfl⟩
  have hlen : front.length = log.wal.offsetLsn.toNat + (log'.disk.bytes log.wal.file).length := by
    rw [hfront, List.length_append, List.length_take_of_le hends.starts]
  have hcontent : (j.step (.append given)).content = front ++ (gap ++ log'.wal.buffer) := by
    rw [Journal.content_append, ← List.take_append_drop log.wal.offsetLsn.toNat j.content, hends.drop_eq,
      hfront, hbytes]
    simp only [List.append_assoc, hparts]
  have hsafe : j.safe.length ≤ front.length := by
    have hbefore := (log.disk.safe_prefix_bytes log.wal.file).length_le
    have hafter := (hpasses.bytes_prefix log.wal.file).length_le
    have := hends.safe_le
    omega
  have hleft : log'.wal.refused - log.wal.refused = gap.length := by omega
  refine ⟨front.length - (j.step (.append given)).safe.length, ?_⟩
  rw [hleft]
  refine h.change hends hpasses.dir (fun other hne _ => ?_) ?_ ?_
  · rw [bytes, bytes, safe, safe, hpasses.others other hne]
    exact ⟨rfl, rfl⟩
  · have hleaveOut := Journal.content_leaveOut hcontent hsafe
    rw [hfront, List.append_assoc, ← hfront] at hleaveOut
    exact hleaveOut
  · exact Nat.le_trans hends.safe_le (Nat.add_le_add_left hpasses.safe.length_le _)

/-- A sync of the log syncs the journal. -/
theorem Holds.syncs (h : log.disk.Holds dropped log.wal.buffer j) (hsyncs : log.Syncs log')
    (hends : log.disk.EndsIn log.wal.buffer j log.wal.offsetLsn log.wal.file) :
    log'.disk.Holds dropped [] (j.step .sync) := by
  refine h.change hends hsyncs.passes.dir (fun other hne _ => ?_) ?_ ?_
  · rw [bytes, bytes, safe, safe, hsyncs.passes.others other hne]
    exact ⟨rfl, rfl⟩
  · rw [Journal.content_sync, List.append_nil, hsyncs.bytes, Log.stream, ← hends.drop_eq, List.take_append_drop]
  · rw [hsyncs.safe, Log.stream]
    exact Nat.le_of_eq hends.length

end Log

/-- A stop loses what is behind some place. -/
theorem Holds.crash (h : disk.Holds dropped held j) (keep : Nat → Nat) :
    ∃ n, (disk.crash keep).Holds dropped [] (j.step (.lose n)) := by
  rcases h.last with ⟨hempty, hnone⟩ | ⟨top, last, hends⟩
  · refine ⟨0, h.apart, ?_, Or.inl ⟨?_, hnone⟩⟩
    · intro lsn next file hfile
      exact absurd (hasSegment_iff.mpr ⟨file, hfile⟩) (hnone lsn)
    · obtain ⟨hsafe, -⟩ := List.append_eq_nil_iff.mp hempty
      simp [Journal.content, Journal.step, hsafe]
  · obtain ⟨back, hback⟩ := (bytes_crash_starts disk keep last).trans (List.prefix_append _ held)
    obtain ⟨front, hfront⟩ : ∃ front, front = j.content.take top.toNat ++ (disk.crash keep).bytes last :=
      ⟨_, rfl⟩
    have hcontent : j.content = front ++ back := by
      rw [hfront, List.append_assoc, hback, ← hends.drop_eq, List.take_append_drop]
    have hleft := ((disk.crash keep).safe_prefix_bytes last).length_le
    rw [safe_crash] at hleft
    have hsafe : j.safe.length ≤ front.length := by
      rw [hfront, List.length_append, List.length_take_of_le hends.starts]
      exact Nat.le_trans hends.safe_le (Nat.add_le_add_left hleft _)
    refine ⟨front.length - j.safe.length,
      h.change hends rfl (fun other _ hsame => ⟨?_, safe_crash keep other⟩) ?_ ?_⟩
    · have hstarts := (disk.crash keep).safe_prefix_bytes other
      rw [safe_crash, hsame] at hstarts
      exact (bytes_crash_starts disk keep other).eq_of_length_le hstarts.length_le
    · rw [Journal.content_lose hcontent hsafe, hfront, List.append_nil]
    · rw [safe_crash]
      exact hends.safe_le

/-- A new segment where the journal ends is the last one. -/
theorem Holds.create (h : disk.Holds dropped [] j) {lsn : U64} (hnone : ¬disk.HasSegment lsn)
    (hlsn : j.content.length = lsn.toNat) (habove : ∀ other, disk.HasSegment other → other < lsn)
    (hsafe : ∀ last file, disk.EndsIn [] j last file → disk.safe file = disk.bytes file) :
    (disk.create (segmentName lsn)).Holds dropped [] j := by
  have htop : ∀ other, (disk.create (segmentName lsn)).HasSegment other → other ≤ lsn := by
    intro other hother
    rcases hasSegment_create.mp hother with rfl | hother
    · exact BitVec.le_refl _
    · exact Nat.le_of_lt (habove other hother)
  have hlow : ∀ low next file, (disk.create (segmentName lsn)).dir.lookup (segmentName low) = some file →
      (disk.create (segmentName lsn)).Next low next → disk.dir.lookup (segmentName low) = some file := by
    rintro low next file hfile ⟨hseg, hlt, -⟩
    have hne : segmentName low ≠ segmentName lsn := by
      intro heq
      obtain rfl := segmentName_inj heq
      exact absurd hlt (BitVec.not_lt.mpr (htop next hseg))
    rwa [lookup_create, if_neg hne] at hfile
  constructor
  · exact h.apart.create _
  · intro low next file hfile hdropped hnext
    have hfile' := hlow low next file hfile hnext
    obtain ⟨hseg, hlt, hleast⟩ := hnext
    have hkeep : ∀ mid, disk.HasSegment mid → low < mid → next ≤ mid := fun mid hmid =>
      hleast mid (hasSegment_create.mpr (Or.inr hmid))
    rw [bytes_create, safe_create]
    rcases hasSegment_create.mp hseg with rfl | hseg'
    · -- the journal ended in the segment before the new one
      have hends := h.endsIn hfile' fun other hother => BitVec.not_lt.mp fun hlt' =>
        absurd (habove other hother) (BitVec.not_lt.mpr (hkeep other hother hlt'))
      have hlen := hends.length
      rw [List.append_nil] at hlen
      refine ⟨?_, by omega, hsafe low file hends⟩
      rw [hends.drop_eq, List.append_nil]
    · exact h.full low next file hfile' hdropped ⟨hseg', hlt, hkeep⟩
  · refine Or.inr ⟨lsn, disk.files.length, (lookup_create disk _ _).trans (if_pos rfl), htop,
      Nat.le_of_eq hlsn.symm, ?_, ?_⟩
    · have hempty : disk.bytes disk.files.length = [] := by simp [bytes]
      rw [bytes_create, hempty, ← hlsn, List.drop_length, List.append_nil]
    · rw [← hlsn]
      exact Nat.le_add_right_of_le j.safe_prefix_content.length_le

/-- Removing segments below a bound leaves the others, which hold the journal. -/
theorem Holds.drop (h : disk.Holds dropped held j) {disk' : Disk} {bound : U64} (hfiles : disk'.files = disk.files)
    (hdir : ∀ name, disk'.dir.lookup name = disk.dir.lookup name ∨
      (∃ lsn, name = segmentName lsn ∧ lsn < bound) ∧ disk'.dir.lookup name = none)
    {lsn : U64} (hlast : disk.HasSegment lsn) (htop : ∀ other, disk.HasSegment other → other ≤ lsn)
    (hbound : bound ≤ lsn) : disk'.Holds (max dropped bound.toNat) held j := by
  have hbytes : ∀ file, disk'.bytes file = disk.bytes file := fun file => by rw [bytes, bytes, hfiles]
  have hsafe : ∀ file, disk'.safe file = disk.safe file := fun file => by rw [safe, safe, hfiles]
  have hold : ∀ name file, disk'.dir.lookup name = some file → disk.dir.lookup name = some file := by
    intro name file hname
    rcases hdir name with heq | ⟨-, hnone⟩
    · rwa [← heq]
    · rw [hnone] at hname
      cases hname
  have hseg : ∀ other, disk'.HasSegment other → disk.HasSegment other := by
    intro other hother
    obtain ⟨file, hfile⟩ := hasSegment_iff.mp hother
    exact hasSegment_iff.mpr ⟨file, hold _ file hfile⟩
  have hkept : ∀ other, bound ≤ other →
      disk'.dir.lookup (segmentName other) = disk.dir.lookup (segmentName other) := by
    intro other hle
    rcases hdir (segmentName other) with heq | ⟨⟨low, hname, hlt⟩, -⟩
    · exact heq
    · exact absurd hlt (BitVec.not_lt.mpr (segmentName_inj hname ▸ hle))
  constructor
  · exact fun name name' file hname hname' => h.apart name name' file (hold name file hname) (hold name' file hname')
  · rintro low next file hfile hdropped ⟨hnext, hlt, hleast⟩
    obtain ⟨hle, hle'⟩ := Nat.max_le.mp hdropped
    rw [hbytes, hsafe]
    refine h.full low next file (hold _ file hfile) hle ⟨hseg next hnext, hlt, fun mid hmid hlt' => ?_⟩
    have hmid' := hkept mid (Nat.le_trans hle' (Nat.le_of_lt hlt'))
    obtain ⟨file', hfile'⟩ := hasSegment_iff.mp hmid
    exact hleast mid (hasSegment_iff.mpr ⟨file', hmid'.trans hfile'⟩) hlt'
  · obtain ⟨file, hfile⟩ := hasSegment_iff.mp hlast
    have hends := h.endsIn hfile htop
    have htop' : ∀ other, disk'.HasSegment other → other ≤ lsn := fun other hother => htop other (hseg other hother)
    refine Or.inr ⟨lsn, file, (hkept lsn hbound).trans hfile, htop', hends.starts, ?_, ?_⟩
    · rw [hbytes]
      exact hends.drop_eq
    · rw [hsafe]
      exact hends.safe_le

end Disk

end Kobzar
