import Kobzar.Wal.Decode
import Kobzar.Wal.Frames

/-!
# What a crash leaves of a segment

Entries are written to an empty segment one after another, up to the first write that fails in the middle of a
frame, and then the process stops and loses some of what was not synced. What is left of the file still tells the
entries whose frames it holds in full, whatever was written behind them (`crashed_segment_tells_entries`).
-/

namespace Kobzar

open Writer Codes

/-! ## Writes that may fail -/

/-- A crash leaves a front of each file. -/
theorem Disk.bytes_crash_starts (disk : Disk) (keep : Nat → Nat) (file : Nat) :
    (disk.crash keep).bytes file <+: disk.bytes file := by
  simp only [Disk.bytes, Disk.crash, List.getElem?_mapIdx]
  cases disk.files[file]? with
  | none => exact List.prefix_refl _
  | some f => exact (List.prefix_append_right_inj f.safe).mpr (List.take_prefix _ _)

/-- Entries that are written, wherever this ends, give a front of the frames of some of them to the log. -/
theorem Log.passes_writeAll {digest : Digest} {log : Log} (h : log.Valid) (subs : List Submission) :
    ∃ k given done, (∀ s ∈ subs.take k, ∃ size, entrySize s.entry = .ok size) ∧
      given <+: (subs.take k).flatMap (·.bytes digest) ∧ log.Passes given done (log.writeAll digest subs).2 := by
  induction subs generalizing log with
  | nil => exact ⟨0, [], true, fun _ hs => absurd hs List.not_mem_nil, List.nil_prefix, .refl log⟩
  | cons s rest ih =>
    obtain ⟨front, done, hfront, hpasses, hall⟩ := passes_writeEntry h digest s.tx s.entry s.rooms
    unfold writeAll
    rcases hwrite : log.writeEntry digest s.tx s.entry s.rooms with ⟨stop | _, mid⟩ <;> rw [hwrite] at hpasses hall
    · -- the frame of the entry is torn, if there is one
      cases hsize : entrySize s.entry with
      | error reason =>
        rw [entryBytes, hsize, List.prefix_nil] at hfront
        exact ⟨0, front, done, fun _ hs => absurd hs List.not_mem_nil, hfront ▸ List.nil_prefix, hpasses⟩
      | ok size =>
        refine ⟨1, front, done, fun t ht => ⟨size, ?_⟩, ?_, hpasses⟩
        · rw [List.take_succ_cons, List.take_zero, List.mem_singleton] at ht
          exact ht ▸ hsize
        · rwa [List.take_succ_cons, List.take_zero, List.flatMap_singleton]
    · obtain ⟨rfl, rfl, hsize⟩ := hall rfl
      obtain ⟨k, given, done, hsizes, hgiven, hrest⟩ := ih (hpasses.valid h)
      refine ⟨k + 1, s.bytes digest ++ given, done, ?_, ?_, hpasses.trans hrest⟩
      · rw [List.take_succ_cons]
        exact List.forall_mem_cons.mpr ⟨hsize, hsizes⟩
      · rw [List.take_succ_cons, List.flatMap_cons]
        exact (List.prefix_append_right_inj _).mpr hgiven

/-! ## What is told -/

/-- Frames of entries that start what was written of others are the frames of the first of these. -/
theorem map_logged_eq_of_starts {digest : Digest} {done subs : List Submission} {k : Nat}
    (h : ∀ s ∈ done, ∃ size, entrySize s.entry = .ok size)
    (h' : ∀ s ∈ subs.take k, ∃ size, entrySize s.entry = .ok size)
    (hstarts : done.flatMap (·.bytes digest) <+: (subs.take k).flatMap (·.bytes digest)) :
    (subs.take done.length).map Submission.logged = done.map Submission.logged := by
  have hcode : ∀ s : Submission, (∃ size, entrySize s.entry = .ok size) → s.bytes digest ∈ frameCode digest := by
    rintro s ⟨size, hsize⟩
    exact ⟨s.tx, s.entry, size, hsize, by simp only [Submission.bytes, entryBytes, hsize]⟩
  have hframes : done.map (·.bytes digest) <+: (subs.take k).map (·.bytes digest) := by
    refine (prefixFree_frameCode digest).starts_of_flatten ?_ ?_ (by rwa [← List.flatMap_def, ← List.flatMap_def])
    · exact List.forall_mem_map.mpr fun s hs => hcode s (h s hs)
    · exact List.forall_mem_map.mpr fun s hs => hcode s (h' s hs)
  have hle : done.length ≤ k := by
    have hlen := hframes.length_le
    rw [List.length_map, List.length_map, List.length_take] at hlen
    exact Nat.le_trans hlen (Nat.min_le_left _ _)
  have htake : (subs.take k).take done.length = subs.take done.length := by rw [List.take_take, Nat.min_eq_left hle]
  have hfirst : done.map (·.bytes digest) = (subs.take done.length).map (·.bytes digest) := by
    have heq := List.prefix_iff_eq_take.mp hframes
    rwa [List.length_map, ← List.map_take, htake] at heq
  have hsizes : ∀ s ∈ subs.take done.length, ∃ size, entrySize s.entry = .ok size := by
    intro s hs
    rw [← htake] at hs
    exact h' s (List.mem_of_mem_take hs)
  have htext : (subs.take done.length).flatMap (·.bytes digest) = done.flatMap (·.bytes digest) := by
    rw [List.flatMap_def, List.flatMap_def, hfirst]
  exact (map_logged_eq h hsizes htext).2

/-- Entries of which the same is logged are the same, but for a kind. -/
theorem entry_eq_of_logged_eq {s s' : Submission} (h : s'.logged = s.logged) (hkind : s.entry.isCreateFn = false) :
    s'.entry = s.entry := by
  simp only [Submission.logged, Prod.mk.injEq] at h
  obtain ⟨-, hcode, hpayload⟩ := h
  have hkind' : s'.entry.isCreateFn = false := by
    rw [← Bool.not_eq_true, ← WalEntry.walCode_eq_createFn_iff] at hkind ⊢
    rwa [hcode]
  have hread := readEntry_payload hkind
  rw [← hcode, ← hpayload, readEntry_payload hkind'] at hread
  exact (Prod.mk.inj (Option.some.inj hread)).1

/-- Entries written to an empty segment one after another, all successfully. When they are synced, their frames
start what a crash leaves of the file, whatever is written behind them and wherever that ends. And whenever a crash
leaves a file that starts with these frames, of a segment that was empty before any entries were written to it, up
to the first write that failed, then the first of those entries have the generations, kind codes and payloads of
these, and are the same but for functions that were created. -/
theorem crashed_segment_tells_entries (digest : Digest) (log mid : Log) (hvalid : log.Valid) (hempty : log.stream = [])
    (done : List Submission) (hdone : log.writeAll digest done = (.ok (), mid)) :
    (∀ faults synced, mid.sync faults = (.ok (), synced) → ∀ rest keep,
      done.flatMap (·.bytes digest) <+: ((synced.writeAll digest rest).2.disk.crash keep).bytes log.wal.file) ∧
    ∀ (other : Log) (subs : List Submission) (keep : Nat → Nat), other.Valid → other.stream = [] →
      done.flatMap (·.bytes digest) <+: ((other.writeAll digest subs).2.disk.crash keep).bytes other.wal.file →
        (subs.take done.length).map Submission.logged = done.map Submission.logged ∧
          ∀ (i : Nat) (s s' : Submission), done[i]? = some s → subs[i]? = some s' → s.entry.isCreateFn = false →
            s'.entry = s.entry := by
  obtain ⟨hpasses, hsizes⟩ := Log.writeAll_ok hvalid hdone
  constructor
  · intro faults synced hsync rest keep
    obtain ⟨hsyncs, hclear⟩ := Log.sync_ok (hpasses.valid hvalid) hsync
    -- the sync had no failure to report, so that the device has refused none of the entries
    have hstream := hpasses.stream (hpasses.clear hclear).2
    rw [hempty, List.nil_append] at hstream
    have hsafe := hsyncs.safe
    rw [hpasses.file, hstream] at hsafe
    obtain ⟨_, _, _, _, _, hrest⟩ := @Log.passes_writeAll digest synced
      (hsyncs.passes.valid (hpasses.valid hvalid)) rest
    have hkeeps := hrest.safe_prefix log.wal.file
    rw [hsafe, ← Disk.safe_crash keep] at hkeeps
    exact hkeeps.trans (Disk.safe_prefix_bytes _ _)
  · intro other subs keep hother hempty' hleft
    obtain ⟨k, given, _, hsizes', hgiven, hwrites⟩ := @Log.passes_writeAll digest other hother subs
    have hfile := hwrites.file_prefix
    rw [hempty', List.nil_append] at hfile
    have hfront := ((hleft.trans (Disk.bytes_crash_starts _ keep _)).trans hfile).trans hgiven
    have hlogged := map_logged_eq_of_starts hsizes hsizes' hfront
    refine ⟨hlogged, fun i s s' hs hs' hkind => entry_eq_of_logged_eq ?_ hkind⟩
    obtain ⟨hi, rfl⟩ := List.getElem?_eq_some_iff.mp hs
    have hat := congrArg (fun told => told[i]?) hlogged
    simpa [List.getElem?_take, hi, hs'] using hat

/-- A commit written through a buffer of 64 bytes and synced and two rollbacks behind it, of which a crash leaves
twenty bytes: the file starts with the frame of the commit. -/
theorem crashed_segment_tells_commit :
    let log : Log := { emptyLog with wal := { emptyLog.wal with capacity := 64 } }
    let mid := (log.writeAll zeroDigest [⟨1, .commit, []⟩]).2
    let left := (((mid.sync .none).2.writeAll zeroDigest [⟨2, .rollback, []⟩, ⟨3, .rollback, []⟩]).2.disk.crash
      fun _ => 20).bytes 0
    left.length = 84 ∧ entryBytes zeroDigest 1 .commit <+: left := by
  intro log mid left
  have hdone : log.writeAll zeroDigest [⟨1, .commit, []⟩] = (.ok (), mid) := Prod.fst_eq_iff.mp (by decide +kernel)
  have hsync : mid.sync .none = (.ok (), (mid.sync .none).2) := Prod.fst_eq_iff.mp (by decide +kernel)
  have hstarts := (crashed_segment_tells_entries zeroDigest log mid Nat.zero_lt_one rfl [⟨1, .commit, []⟩] hdone).1
    .none _ hsync [⟨2, .rollback, []⟩, ⟨3, .rollback, []⟩] fun _ => 20
  simp only [List.flatMap_singleton, Submission.bytes] at hstarts
  exact ⟨by decide +kernel, hstarts⟩

end Kobzar
