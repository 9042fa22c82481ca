import Kobzar.Wal.Scan
import Kobzar.Wal.System

/-!
# Entries behind a torn one

An entry is written in many pieces, and nothing takes back the pieces written before one that fails; nor does
`open_latest` look at what a stop has left. While every write that succeeds goes to a segment of whole entries, and
a sync succeeds only when the device has refused nothing of the entries it makes safe, all that was synced is
reached by a scan of its segment (`synced_entry_reached`). A write behind a torn entry succeeds as well, and is not
(`torn_entry_hides_next`).
-/

namespace Kobzar

open Writer

/-- A write that succeeds goes to a segment of whole entries, those in the buffer included; and when the log is
synced, no entry is in doubt. -/
def WritesWhole (digest : Digest) (s : WalSystem) : WalEvent → Prop
  | .call (.writeEntry tx entry rooms) => ∀ wal, s.wal = some wal →
      ((s.log wal).writeEntry digest tx entry rooms).1 = .ok () → WholeEntries digest (s.log wal).stream
  | .call call => ∀ wal, s.wal = some wal → call.syncs (s.log wal) = true → s.doubted = []
  | _ => True

namespace WalSystem

variable {digest : Digest} {s t : WalSystem} {event : WalEvent}

/-- A sync without an entry in doubt makes durable what it acknowledges. -/
theorem acknowledged_step (hs : s.acknowledged = s.durable) (h : Steps digest s event t)
    (hguard : WritesWhole digest s event) : t.acknowledged = t.durable := by
  have hsync : ∀ {call : WalCall} {wal}, event = .call call → s.wal = some wal → call.syncs (s.log wal) = true →
      s.pending ++ s.doubted ++ s.acknowledged = s.pending ++ s.durable := by
    intro call wal hevent running ok
    subst hevent
    have hnone : s.doubted = [] := by
      cases call with
      | sync faults => exact hguard wal running ok
      | cutWal faults => exact hguard wal running ok
      | _ => cases ok
    rw [hnone, List.append_nil, hs]
  cases h with
  | synced running syncs ok => exact hsync rfl running ok
  | cut running syncs ok ends opened => exact hsync rfl running ok
  | _ => exact hs

/-- A run in which every write that succeeds goes to a segment of whole entries keeps every entry written and
synced behind bytes that a scan gets through. -/
theorem keeps_reached {disk : Disk} (h : WalSystem.Run digest (WritesWhole digest) disk s) :
    (s.Keeps fun front => Reached front front.length) ∧ s.acknowledged = s.durable := by
  refine Runs.Reaches.inv (fun s => (s.Keeps fun front => Reached front front.length) ∧ s.acknowledged = s.durable)
    (fun s event t hs hguard hstep => ?_) h ⟨keeps_start _ disk, rfl⟩
  obtain ⟨-, rfl⟩ := hstep
  obtain ⟨hkeeps, hacknowledged⟩ := hs
  have hsteps := hkeeps.steps digest event
  refine ⟨hkeeps.step hsteps ?_, acknowledged_step hacknowledged hsteps hguard⟩
  intro tx entry rooms wal hevent running hok
  subst hevent
  exact reached_of_whole (hguard wal running hok)

end WalSystem

open WalSystem

/-- In every run in which every write that succeeds goes to a segment of whole entries, and every sync that
succeeds finds no entry in doubt: every entry written and synced stands in its segment where it was written, and
the scan of the segment from its start reaches it; and its segment has its name, unless a bound above its start was
dropped by. -/
theorem synced_entry_reached (digest : Digest) (disk : Disk) (s : WalSystem)
    (hrun : WalSystem.Run digest (WritesWhole digest) disk s) :
    ∀ e ∈ s.acknowledged, (s.dropped ≤ e.start.toNat → s.disk.dir.lookup (segmentName e.start) = some e.file) ∧
      e.bytes <+: (s.disk.bytes e.file).drop e.offset ∧ Reached (s.disk.bytes e.file) e.offset := by
  intro e he
  obtain ⟨hkeeps, hacknowledged⟩ := keeps_reached hrun
  obtain ⟨hsafe, hnamed⟩ := hkeeps.durable e (hacknowledged ▸ he)
  have hin := hsafe.mono (s.disk.safe_prefix_bytes e.file)
  refine ⟨hnamed, hin.drop, ?_⟩
  obtain ⟨front, hreached, hlen, hfront⟩ := hin
  rw [← hlen]
  exact reached_congr (List.prefix_refl front) ((List.prefix_append _ _).trans hfront) (Nat.le_refl _) hreached

/-! ## Two runs -/

/-- A commit and a rollback written and synced are both reached. -/
theorem synced_entry_reached_rollback :
    let s := [WalCall.writeEntry 1 .commit [], .writeEntry 2 .rollback [], .sync .none].foldl
      (fun s call => s.next zeroDigest (.call call)) openedSystem
    s.disk.dir.lookup (segmentName 0) = some 0 ∧
      entryBytes zeroDigest 2 .rollback <+: (s.disk.bytes 0).drop 64 ∧ Reached (s.disk.bytes 0) 64 := by
  intro s
  have hrun : WalSystem.Run zeroDigest (WritesWhole zeroDigest) .empty s := by
    simp only [s, List.foldl_cons, List.foldl_nil]
    refine (((run_openedSystem trivial).snoc (.call (.writeEntry 1 .commit [])) ?_ trivial).snoc
      (.call (.writeEntry 2 .rollback [])) ?_ trivial).snoc (.call (.sync .none)) ?_ trivial
    · rintro wal ⟨⟩ -
      exact .nil
    · rintro wal ⟨⟩ -
      exact .snoc 1 .nil (show entrySize .commit = .ok 56 by decide +kernel)
    · intro _ _ _
      decide +kernel
  have he : { start := 0, file := 0, offset := 64, bytes := entryBytes zeroDigest 2 .rollback } ∈ s.acknowledged := by
    decide +kernel
  have hdropped : s.dropped ≤ (0 : U64).toNat := by decide +kernel
  obtain ⟨hnamed, hreached⟩ := synced_entry_reached zeroDigest .empty s hrun _ he
  exact ⟨hnamed hdropped, hreached⟩

/-- A commit is written and flushed, a stop leaves 48 bytes of it, and the next process writes a rollback behind
them and syncs it: the scan of the segment does not reach the rollback. -/
theorem torn_entry_hides_next :
    let s := [WalEvent.call (.writeEntry 1 .commit []), .call (.flush []), .stop fun _ => 48,
      .openLatest (.ok [.ok (segmentName 0)]) 8192 none, .call (.writeEntry 2 .rollback []), .call (.sync .none)].foldl
        (fun s event => s.next zeroDigest event) openedSystem
    WalSystem.Run zeroDigest (fun _ _ => True) .empty s ∧
      { start := 0, file := 0, offset := 48, bytes := entryBytes zeroDigest 2 .rollback } ∈ s.acknowledged ∧
      ¬ Reached (s.disk.bytes 0) 48 := by
  intro s
  have hopened : WalSystem.Run zeroDigest (fun _ _ => True) .empty openedSystem := run_openedSystem trivial
  have hstopped := ((hopened.snoc (.call (.writeEntry 1 .commit [])) trivial trivial).snoc (.call (.flush [])) trivial
    trivial).snoc (.stop fun _ => 48) trivial trivial
  refine ⟨?_, by decide +kernel, ?_⟩
  · simp only [s, List.foldl_cons, List.foldl_nil]
    refine ((hstopped.snoc (.openLatest (.ok [.ok (segmentName 0)]) 8192 none) trivial ?_).snoc
      (.call (.writeEntry 2 .rollback [])) trivial trivial).snoc (.call (.sync .none)) trivial trivial
    rintro entries ⟨⟩
    exact lists_of_keys (by decide +kernel : _ = [segmentName 0])
  · have hbytes : s.disk.bytes 0 = [] ++ (frame zeroDigest 1 .commit 56).take 48 ++ frame zeroDigest 2 .rollback 56 := by
      decide +kernel
    rw [hbytes]
    exact not_reached_behind_torn .nil (show entrySize .commit = .ok 56 by decide +kernel) (by decide) (by decide +kernel)

end Kobzar
