import Kobzar.Library.Codes
import Kobzar.Wal.System

/-!
# The frames of a segment

What stands in a segment after entries were written to it one after another: their frames end to end. Each frame
starts at a multiple of eight and tells its size, and its hash is that of what is stored of it behind the hash.
Since a frame tells its size first, none starts another one, and the bytes of a segment tell the generations, kind
codes and payloads that were written (`writeAll_frames`).
-/

namespace Kobzar

open Bytes Writer Codes InformationTheory

/-! ## The parts of a frame -/

/-- A part of a list, where it starts. -/
theorem take_drop_append {α : Type} {n o : Nat} (front part back : List α) (ho : front.length = o)
    (hn : part.length = n) : ((front ++ part ++ back).drop o).take n = part := by
  subst ho hn
  rw [List.append_assoc, List.drop_left, List.take_left]

/-- A word of eight bytes, where it starts. -/
theorem wordAt_append {o : Nat} (front : List U8) (x : U64) (back : List U8) (ho : front.length = o) :
    wordAt 8 (front ++ le64 x ++ back) o = x := by
  have hlen : (le64 x).length = 8 := toLe_length 8 x.toNat
  rw [wordAt, take_drop_append front (le64 x) back ho hlen, le64, ofLe_toLe_of_lt (by exact x.isLt), BitVec.ofNat_toNat,
    BitVec.setWidth_eq]

/-- What the hash of an entry is computed from. -/
def hashed (tx : U64) (entry : WalEntry) : List U8 := le64 tx ++ le64 entry.walCode ++ entry.payload

/-- The padding behind an entry, as bytes. -/
def zeros (size : U64) : List U8 := List.replicate (padding size) 0

/-- A frame is the size, the hash, what is hashed, and the padding. -/
theorem frame_parts (digest : Digest) (tx : U64) (entry : WalEntry) (size : U64) :
    frame digest tx entry size = le64 size ++ (digest (hashed tx entry)).toList ++ hashed tx entry ++ zeros size := by
  have hzeros : (List.replicate (padding size) [(0 : U8)]).flatten = zeros size := by simp [zeros]
  rw [frame, framePieces, List.flatten_append, List.flatten_append, hzeros]
  simp only [List.flatten_cons, List.flatten_nil, List.append_nil, hashed, WalEntry.payload, List.append_assoc]

/-- Size and padding end at a multiple of eight. -/
theorem eight_dvd_size_add_padding (size : U64) : 8 ∣ size.toNat + padding size := by
  unfold padding
  omega

/-- What stands in bytes at a place where an entry was written: at a multiple of eight its size, up to the last
byte of its payload, the hash of what is stored from its fortieth byte up to its size, its generation, kind code
and payload. -/
structure FrameAt (digest : Digest) (bytes : List U8) (o : Nat) (tx : U64) (entry : WalEntry) : Prop where
  aligned : 8 ∣ o
  size : (wordAt 8 bytes o).toNat = 56 + entry.payload.length
  within : o + (wordAt 8 bytes o).toNat ≤ bytes.length
  hash : (bytes.drop (o + 8)).take 32 =
    (digest ((bytes.drop (o + 40)).take ((wordAt 8 bytes o).toNat - 40))).toList
  generation : wordAt 8 bytes (o + 40) = tx
  kindCode : wordAt 8 bytes (o + 48) = entry.walCode
  payload : (bytes.drop (o + 56)).take entry.payload.length = entry.payload

/-- The frame of an entry, behind bytes that end at a multiple of eight. -/
theorem frameAt_frame (digest : Digest) (tx : U64) {entry : WalEntry} {size : U64} (hsize : entrySize entry = .ok size)
    {front : List U8} (hfront : 8 ∣ front.length) (back : List U8) :
    FrameAt digest (front ++ frame digest tx entry size ++ back) front.length tx entry := by
  have hnat := entrySize_ok hsize
  have hlen : (le64 size).length = 8 := toLe_length 8 size.toNat
  have hlenTx : (le64 tx).length = 8 := toLe_length 8 tx.toNat
  have hlenCode : (le64 entry.walCode).length = 8 := toLe_length 8 entry.walCode.toNat
  obtain ⟨hash, hhash⟩ : ∃ hash, hash = (digest (hashed tx entry)).toList := ⟨_, rfl⟩
  have hlenHash : hash.length = 32 := by rw [hhash, Vector.length_toList]
  have hlenHashed : (hashed tx entry).length = size.toNat - 40 := by
    simp only [hashed, List.length_append, hlenTx, hlenCode]
    omega
  have hparts := frame_parts digest tx entry size
  rw [← hhash] at hparts
  obtain ⟨bytes, hbytes⟩ : ∃ bytes, bytes = front ++ frame digest tx entry size ++ back := ⟨_, rfl⟩
  rw [← hbytes]
  have hword : wordAt 8 bytes front.length = size := by
    have heq : bytes = front ++ le64 size ++ (hash ++ hashed tx entry ++ zeros size ++ back) := by
      simp only [hbytes, hparts, List.append_assoc]
    rw [heq, wordAt_append front size _ rfl]
  have hstored : (bytes.drop (front.length + 40)).take (size.toNat - 40) = hashed tx entry := by
    have heq : bytes = front ++ le64 size ++ hash ++ hashed tx entry ++ (zeros size ++ back) := by
      simp only [hbytes, hparts, List.append_assoc]
    rw [heq, take_drop_append _ _ _ (by simp only [List.length_append, hlen, hlenHash]) hlenHashed]
  refine ⟨hfront, by rw [hword, hnat], ?_, ?_, ?_, ?_, ?_⟩
  · rw [hword, hbytes, List.length_append, List.length_append, frame_length digest tx hsize]
    omega
  · have heq : bytes = front ++ le64 size ++ hash ++ (hashed tx entry ++ zeros size ++ back) := by
      simp only [hbytes, hparts, List.append_assoc]
    rw [hword, hstored, ← hhash, heq, take_drop_append _ _ _ (by simp only [List.length_append, hlen]) hlenHash]
  · have heq : bytes = front ++ le64 size ++ hash ++ le64 tx ++
        (le64 entry.walCode ++ entry.payload ++ zeros size ++ back) := by
      simp only [hbytes, hparts, hashed, List.append_assoc]
    rw [heq, wordAt_append _ tx _ (by simp only [List.length_append, hlen, hlenHash])]
  · have heq : bytes = front ++ le64 size ++ hash ++ le64 tx ++ le64 entry.walCode ++
        (entry.payload ++ zeros size ++ back) := by
      simp only [hbytes, hparts, hashed, List.append_assoc]
    rw [heq, wordAt_append _ entry.walCode _ (by simp only [List.length_append, hlen, hlenHash, hlenTx])]
  · have heq : bytes = front ++ le64 size ++ hash ++ le64 tx ++ le64 entry.walCode ++ entry.payload ++
        (zeros size ++ back) := by
      simp only [hbytes, hparts, hashed, List.append_assoc]
    rw [heq, take_drop_append _ _ _ (by simp only [List.length_append, hlen, hlenHash, hlenTx, hlenCode]) rfl]

/-! ## The code of the frames -/

/-- The frames of entries whose size can be computed. -/
def frameCode (digest : Digest) : Set (List U8) :=
  { bytes | ∃ tx entry size, entrySize entry = .ok size ∧ bytes = frame digest tx entry size }

/-- No frame starts another one, since a frame starts with its size. -/
theorem prefixFree_frameCode (digest : Digest) : PrefixFree (frameCode digest) where
  ne_nil := by
    rintro _ ⟨tx, entry, size, hsize, rfl⟩ hnil
    have hlen := frame_length digest tx hsize
    rw [hnil, List.length_nil, entrySize_ok hsize] at hlen
    omega
  eq_of_starts := by
    rintro _ ⟨tx, entry, size, hsize, rfl⟩ _ ⟨tx', entry', size', hsize', rfl⟩ hpre
    obtain ⟨back, hback⟩ := hpre
    have hword := (@frameAt_frame digest tx entry size hsize [] ⟨0, rfl⟩ back).size
    have hword' := (@frameAt_frame digest tx' entry' size' hsize' [] ⟨0, rfl⟩ []).size
    rw [List.nil_append, hback] at hword
    rw [List.nil_append, List.append_nil, hword] at hword'
    have hsizes : size = size' := by
      apply BitVec.eq_of_toNat_eq
      rw [entrySize_ok hsize, entrySize_ok hsize', hword']
    have hlen : (frame digest tx entry size).length = (frame digest tx' entry' size').length := by
      rw [frame_length digest tx hsize, frame_length digest tx' hsize', hsizes]
    exact List.IsPrefix.eq_of_length ⟨back, hback⟩ hlen

/-- A frame tells its generation, kind code and payload. -/
theorem frame_inj {digest : Digest} {tx tx' : U64} {entry entry' : WalEntry} {size size' : U64}
    (hsize : entrySize entry = .ok size) (hsize' : entrySize entry' = .ok size')
    (h : frame digest tx entry size = frame digest tx' entry' size') :
    tx = tx' ∧ entry.walCode = entry'.walCode ∧ entry.payload = entry'.payload := by
  have hat := @frameAt_frame digest tx entry size hsize [] ⟨0, rfl⟩ []
  have hat' := @frameAt_frame digest tx' entry' size' hsize' [] ⟨0, rfl⟩ []
  rw [h] at hat
  refine ⟨hat.generation.symm.trans hat'.generation, hat.kindCode.symm.trans hat'.kindCode, ?_⟩
  have hlen : entry.payload.length = entry'.payload.length := by
    have := hat.size.symm.trans hat'.size
    omega
  rw [← hat.payload, ← hat'.payload, hlen]

/-! ## Entries written one after another -/

/-- An entry to write, its generation, and how much room the device has for each write then. -/
structure Submission where
  tx : U64
  entry : WalEntry
  rooms : List Room

namespace Submission

/-- The frame of the entry. -/
def bytes (digest : Digest) (s : Submission) : List U8 := entryBytes digest s.tx s.entry

/-- What the frame tells of the entry. -/
def logged (s : Submission) : U64 × U64 × List U8 := (s.tx, s.entry.walCode, s.entry.payload)

end Submission

/-- `write_entry` for one entry after another, up to the first that fails. -/
def Log.writeAll (digest : Digest) : Log → List Submission → Except WalStop Unit × Log
  | log, [] => (.ok (), log)
  | log, s :: rest => andThen (log.writeEntry digest s.tx s.entry s.rooms) fun _ log => log.writeAll digest rest

/-- Entries that are all written give their frames to the log. -/
theorem Log.writeAll_ok {digest : Digest} {log log' : Log} (h : log.Valid) {subs : List Submission}
    (hok : log.writeAll digest subs = (.ok (), log')) :
    log.Passes (subs.flatMap (·.bytes digest)) true log' ∧ ∀ s ∈ subs, ∃ size, entrySize s.entry = .ok size := by
  induction subs generalizing log with
  | nil =>
    cases hok
    exact ⟨.refl _, fun _ hs => absurd hs List.not_mem_nil⟩
  | cons s rest ih =>
    obtain ⟨_, mid, hwrite, hrest⟩ := andThen_ok hok
    obtain ⟨front, done, -, hpasses, hall⟩ := passes_writeEntry h digest s.tx s.entry s.rooms
    rw [hwrite] at hpasses hall
    obtain ⟨rfl, rfl, hsize⟩ := hall rfl
    obtain ⟨hrestPasses, hsizes⟩ := ih (hpasses.valid h) hrest
    rw [List.flatMap_cons]
    exact ⟨hpasses.trans hrestPasses, List.forall_mem_cons.mpr ⟨hsize, hsizes⟩⟩

/-- The place of an entry among those written: behind the frames before it. -/
def StartsAt (digest : Digest) (subs : List Submission) (o : Nat) (s : Submission) : Prop :=
  ∃ front back, subs = front ++ s :: back ∧ o = (front.flatMap (·.bytes digest)).length

/-- The frames before an entry end at a multiple of eight. -/
theorem eight_dvd_frames {digest : Digest} {subs : List Submission}
    (h : ∀ s ∈ subs, ∃ size, entrySize s.entry = .ok size) : 8 ∣ (subs.flatMap (·.bytes digest)).length := by
  induction subs with
  | nil => exact ⟨0, rfl⟩
  | cons s rest ih =>
    obtain ⟨⟨size, hsize⟩, hrest⟩ := List.forall_mem_cons.mp h
    rw [List.flatMap_cons, List.length_append]
    refine (Nat.dvd_add_right ?_).mpr (ih hrest)
    simp only [Submission.bytes, entryBytes, hsize]
    rw [frame_length digest s.tx hsize]
    exact eight_dvd_size_add_padding size

/-- Frames put end to end have each entry's frame at its place. -/
theorem StartsAt.frameAt {digest : Digest} {subs : List Submission} {o : Nat} {s : Submission}
    (h : ∀ s ∈ subs, ∃ size, entrySize s.entry = .ok size) (hs : StartsAt digest subs o s) :
    FrameAt digest (subs.flatMap (·.bytes digest)) o s.tx s.entry := by
  obtain ⟨front, back, rfl, rfl⟩ := hs
  obtain ⟨size, hsize⟩ := h s (by simp)
  have hfront : ∀ s ∈ front, ∃ size, entrySize s.entry = .ok size := fun s hs => h s (List.mem_append_left _ hs)
  have hbytes : s.bytes digest = frame digest s.tx s.entry size := by simp only [Submission.bytes, entryBytes, hsize]
  rw [List.flatMap_append, List.flatMap_cons, hbytes, ← List.append_assoc]
  exact frameAt_frame digest s.tx hsize (eight_dvd_frames hfront) _

/-- Frames put end to end tell what was written. -/
theorem map_logged_eq {digest : Digest} {subs subs' : List Submission}
    (h : ∀ s ∈ subs, ∃ size, entrySize s.entry = .ok size)
    (h' : ∀ s ∈ subs', ∃ size, entrySize s.entry = .ok size)
    (heq : subs'.flatMap (·.bytes digest) = subs.flatMap (·.bytes digest)) :
    subs'.map (·.bytes digest) = subs.map (·.bytes digest) ∧
      subs'.map Submission.logged = subs.map Submission.logged := by
  have hcode : ∀ s : Submission, (∃ size, entrySize s.entry = .ok size) → s.bytes digest ∈ frameCode digest := by
    rintro s ⟨size, hsize⟩
    exact ⟨s.tx, s.entry, size, hsize, by simp only [Submission.bytes, entryBytes, hsize]⟩
  have hframes : subs'.map (·.bytes digest) = subs.map (·.bytes digest) := by
    refine (prefixFree_frameCode digest).uniquelyDecodable _ _ ?_ ?_ (by rwa [← List.flatMap_def, ← List.flatMap_def])
    · exact List.forall_mem_map.mpr fun s hs => hcode s (h' s hs)
    · exact List.forall_mem_map.mpr fun s hs => hcode s (h s hs)
  refine ⟨hframes, List.ext_getElem (by simpa using congrArg List.length hframes) ?_⟩
  intro i hi hi'
  rw [List.length_map] at hi hi'
  obtain ⟨size, hsize⟩ := h _ (List.getElem_mem hi')
  obtain ⟨size', hsize'⟩ := h' _ (List.getElem_mem hi)
  have hframe : subs'[i].bytes digest = subs[i].bytes digest := by
    have := congrArg (fun frames => frames[i]?) hframes
    simpa [hi, hi'] using this
  simp only [Submission.bytes, entryBytes, hsize, hsize'] at hframe
  obtain ⟨htx, hcode, hpayload⟩ := frame_inj hsize' hsize hframe
  simp only [List.getElem_map, Submission.logged, htx, hcode, hpayload]

/-- Entries written one after another into an empty segment, file and buffer together, all successfully. A flush
that succeeds then had nothing refused by the device, and leaves exactly what was written in the file. Unless the
device refused some: at the place of each entry stands its frame; and other entries that were written so, and left
the same bytes, have the same frames in the same order, and the same generations, kind codes and payloads. -/
theorem writeAll_frames (digest : Digest) (log log' : Log) (hvalid : log.Valid) (hempty : log.stream = [])
    (subs : List Submission) (hok : log.writeAll digest subs = (.ok (), log')) :
    (∀ rooms flushed, log'.flush rooms = (.ok (), flushed) →
      log'.wal.refused = log.wal.refused ∧ flushed.disk.bytes flushed.wal.file = log'.stream) ∧
    (log'.wal.refused = log.wal.refused →
      (∀ o s, StartsAt digest subs o s → FrameAt digest log'.stream o s.tx s.entry) ∧
      ∀ (other other' : Log) (subs' : List Submission), other.Valid → other.stream = [] →
        other.writeAll digest subs' = (.ok (), other') → other'.wal.refused = other.wal.refused →
          other'.stream = log'.stream →
            subs'.map (·.bytes digest) = subs.map (·.bytes digest) ∧
              subs'.map Submission.logged = subs.map Submission.logged) := by
  obtain ⟨hpasses, hsizes⟩ := Log.writeAll_ok hvalid hok
  constructor
  · intro rooms flushed hflush
    obtain ⟨hflushPasses, -, hclear, -, -, hbytes⟩ := Log.flush_ok (hpasses.valid hvalid) hflush
    rw [hflushPasses.file]
    exact ⟨(hpasses.clear hclear).2, hbytes⟩
  · intro hkept
    have hstream := hpasses.stream hkept
    rw [hempty, List.nil_append] at hstream
    rw [hstream]
    refine ⟨fun o s hs => hs.frameAt hsizes, fun other other' subs' hvalid' hempty' hok' hkept' heq => ?_⟩
    obtain ⟨hpasses', hsizes'⟩ := Log.writeAll_ok hvalid' hok'
    have hstream' := hpasses'.stream hkept'
    rw [hempty', List.nil_append] at hstream'
    exact map_logged_eq hsizes hsizes' (hstream'.symm.trans heq)

/-- An empty segment, open. -/
def emptyLog : Log where
  disk := Disk.empty.create (segmentName 0)
  wal := { file := 0, buffer := [], capacity := 8192, failed := false, refused := 0, offsetLsn := 0 }

/-- A commit and a rollback written to an empty segment: the frame of the rollback stands at 64. -/
theorem writeAll_frames_rollback :
    FrameAt zeroDigest (emptyLog.writeAll zeroDigest [⟨1, .commit, []⟩, ⟨2, .rollback, []⟩]).2.stream 64 2
      .rollback := by
  have hok : emptyLog.writeAll zeroDigest [⟨1, .commit, []⟩, ⟨2, .rollback, []⟩] =
      (.ok (), (emptyLog.writeAll zeroDigest [⟨1, .commit, []⟩, ⟨2, .rollback, []⟩]).2) :=
    Prod.fst_eq_iff.mp (by decide +kernel)
  have hstarts : StartsAt zeroDigest [⟨1, .commit, []⟩, ⟨2, .rollback, []⟩] 64 ⟨2, .rollback, []⟩ :=
    ⟨[⟨1, .commit, []⟩], [], rfl, by decide +kernel⟩
  exact ((writeAll_frames zeroDigest emptyLog _ Nat.zero_lt_one rfl _ hok).2 (by decide +kernel)).1 64 _ hstarts

end Kobzar
