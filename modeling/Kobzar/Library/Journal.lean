import Mathlib

/-!
# A journal

A journal is appended to. What was appended may be lost, from some place on or a part of it, until it is synced;
what is safe stays in front, whatever happens (`Journal.safe_prefix_run`). The journal may be kept in pieces that
lie end to end (`drop_eq_append_drop`).
-/

namespace Journals

variable {α : Type*}

/-- What was appended and is not lost, of which a front is safe. -/
structure Journal (α : Type*) where
  safe : List α
  recent : List α

/-- What happens to a journal; of what is not safe, a loss keeps so much, or leaves out a count of elements behind
so much. -/
inductive Op (α : Type*)
  | append (more : List α)
  | sync
  | lose (kept : Nat)
  | leaveOut (kept count : Nat)

namespace Journal

/-- A journal that nothing was appended to. -/
def empty : Journal α where
  safe := []
  recent := []

/-- All that the journal has. -/
def content (j : Journal α) : List α := j.safe ++ j.recent

/-- One operation. -/
def step (j : Journal α) : Op α → Journal α
  | .append more => { j with recent := j.recent ++ more }
  | .sync => { safe := j.content, recent := [] }
  | .lose kept => { j with recent := j.recent.take kept }
  | .leaveOut kept count => { j with recent := j.recent.take kept ++ j.recent.drop (kept + count) }

/-- Operations one after another. -/
def run (j : Journal α) (ops : List (Op α)) : Journal α := ops.foldl step j

/-- Operations and more of them. -/
theorem run_append (j : Journal α) (ops more : List (Op α)) : j.run (ops ++ more) = (j.run ops).run more :=
  List.foldl_append

/-- Appending nothing leaves the journal. -/
@[simp] theorem step_append_nil (j : Journal α) : j.step (.append []) = j := by
  simp [step]

/-- Leaving out nothing leaves the journal. -/
@[simp] theorem step_leaveOut_zero (j : Journal α) (kept : Nat) : j.step (.leaveOut kept 0) = j := by
  simp [step]

/-- What is appended stands behind the content. -/
@[simp] theorem content_append (j : Journal α) (more : List α) :
    (j.step (.append more)).content = j.content ++ more := by
  simp [content, step]

/-- A sync does not change the content. -/
@[simp] theorem content_sync (j : Journal α) : (j.step .sync).content = j.content := by
  simp [content, step]

/-- What is safe starts the content. -/
theorem safe_prefix_content (j : Journal α) : j.safe <+: j.content := List.prefix_append _ _

/-- What is behind a front of the content, when this has what is safe. -/
theorem recent_of_content {j : Journal α} {front back : List α} (h : j.content = front ++ back)
    (hsafe : j.safe.length ≤ front.length) : front = j.safe ++ front.drop j.safe.length ∧
      j.recent = front.drop j.safe.length ++ back := by
  have hfront : j.safe <+: front :=
    List.prefix_of_prefix_length_le (h ▸ j.safe_prefix_content) (List.prefix_append front back) hsafe
  obtain ⟨rest, rfl⟩ := hfront
  rw [List.drop_left]
  refine ⟨rfl, (List.append_right_inj j.safe).mp ?_⟩
  rw [← List.append_assoc]
  exact h

/-- A loss behind what is safe leaves a front of the content. -/
theorem content_lose {j : Journal α} {front back : List α} (h : j.content = front ++ back)
    (hsafe : j.safe.length ≤ front.length) : (j.step (.lose (front.length - j.safe.length))).content = front := by
  obtain ⟨hfront, hrecent⟩ := recent_of_content h hsafe
  have hlen : (front.drop j.safe.length).length = front.length - j.safe.length := List.length_drop
  rw [content, step, hrecent, List.take_left' hlen]
  exact hfront.symm

/-- Leaving out a part behind what is safe leaves what is before and behind it. -/
theorem content_leaveOut {j : Journal α} {front gap back : List α} (h : j.content = front ++ (gap ++ back))
    (hsafe : j.safe.length ≤ front.length) :
    (j.step (.leaveOut (front.length - j.safe.length) gap.length)).content = front ++ back := by
  obtain ⟨hfront, hrecent⟩ := recent_of_content h hsafe
  have hlen : (front.drop j.safe.length).length = front.length - j.safe.length := List.length_drop
  rw [content, step, hrecent, List.take_left' hlen, ← List.drop_drop, List.drop_left' hlen, List.drop_left,
    ← List.append_assoc]
  exact congrArg (· ++ back) hfront.symm

/-- An operation leaves what is safe, in front. -/
theorem safe_prefix_step (j : Journal α) (op : Op α) : j.safe <+: (j.step op).safe := by
  cases op with
  | append more => exact List.prefix_refl _
  | sync => exact j.safe_prefix_content
  | lose kept => exact List.prefix_refl _
  | leaveOut kept count => exact List.prefix_refl _

/-- Operations leave what is safe, in front. -/
theorem safe_prefix_run (j : Journal α) (ops : List (Op α)) : j.safe <+: (j.run ops).safe := by
  induction ops generalizing j with
  | nil => exact List.prefix_refl _
  | cons op ops ih => exact (j.safe_prefix_step op).trans (ih (j.step op))

end Journal

/-- A piece of a content that starts at one place and ends at another is what is between them. -/
theorem drop_eq_append_drop {content piece : List α} {start stop : Nat} (hpiece : piece <+: content.drop start)
    (hstop : start + piece.length = stop) : content.drop start = piece ++ content.drop stop := by
  obtain ⟨rest, hrest⟩ := hpiece
  rw [← hstop, ← List.drop_drop, ← hrest, List.drop_left]

end Journals
