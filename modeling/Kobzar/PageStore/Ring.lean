import Kobzar.PageStore.History

/-!
# The ring between normalisations

A push writes at the start of the ring and moves it on, so the ring stands for the last four generations recorded,
the oldest one first. Normalising is meant to move the entries in the array and to leave that list as it is. It
rotates to the left by what is missing to a full turn and not by the start, which comes to the same after an even
number of pushes only: exactly the runs that normalise at such times, or when the entries make no difference, keep
the list (`normalises_iff`). And as the oldest entry comes first, `current` and `nth` do not count from the latest
one, as they are meant to (`latestFirst_iff`).
-/

namespace Kobzar

/-- A call on a ring. -/
inductive RingCall where
  | push (generation : U64)
  | rotateToNormalize
  deriving DecidableEq, Repr

namespace RingCall

/-- What a call makes of the ring. -/
def run (ring : RingInline) : RingCall → RingInline
  | .push generation => ring.push generation
  | .rotateToNormalize => ring.rotateToNormalize

/-- What a call adds to the generations recorded. -/
def record (h : History) : RingCall → History
  | .push generation => h.touch generation
  | .rotateToNormalize => h

/-- What a call makes of the number of pushes since the last rotation. -/
def count (pushes : Nat) : RingCall → Nat
  | .push _ => pushes + 1
  | .rotateToNormalize => 0

end RingCall

/-- The generations recorded by calls on a ring, with the one that it was filled with. -/
def recorded (fill : U64) (calls : List RingCall) : History :=
  calls.foldl RingCall.record { first := fill, touches := [] }

/-- The number of pushes since the last rotation among calls. -/
def pushesSince (calls : List RingCall) : Nat := calls.foldl RingCall.count 0

namespace RingInline

/-- A new ring after calls. -/
def after (fill : U64) (calls : List RingCall) : RingInline := calls.foldl RingCall.run (new fill)

/-- The ring holds the last four generations recorded, the oldest one first. -/
def Holds (ring : RingInline) (h : History) : Prop := ∀ n < lastAccessedGens, ring.nth n = h.recent (3 - n)

/-- Normalising the ring leaves its entries as they are, counted from the start, and sets the start to 0. -/
structure Normalisable (ring : RingInline) : Prop where
  nth : ∀ n < lastAccessedGens, ring.rotateToNormalize.nth n = ring.nth n
  start : ring.rotateToNormalize.start = 0

/-! ## What a rotation keeps -/

/-- Counted from the start, a rotation keeps the entries of a ring that starts at an even place, and exchanges the
halves of one that starts at an odd place. -/
theorem nth_rotateToNormalize (ring : RingInline) {n : Nat} (hn : n < lastAccessedGens) :
    ring.rotateToNormalize.nth n = ring.nth ((n + 2 * (ring.start.val % 2)) % 4) := by
  rw [← ring.rotateToNormalize_getElem hn]
  have hn : n < 4 := hn
  interval_cases n <;> rfl

/-- A rotation keeps the ring exactly when it starts at an even place, or its halves are the same. -/
theorem normalisable_iff (ring : RingInline) :
    ring.Normalisable ↔ ring.start.val % 2 = 0 ∨ (ring.nth 0 = ring.nth 2 ∧ ring.nth 1 = ring.nth 3) := by
  rcases Nat.mod_two_eq_zero_or_one ring.start.val with heven | hodd
  · refine iff_of_true ⟨fun n hn => ?_, rfl⟩ (Or.inl heven)
    rw [nth_rotateToNormalize ring hn, heven, Nat.mul_zero, Nat.add_zero, Nat.mod_eq_of_lt hn]
  · have hnth : ∀ n < lastAccessedGens, ring.rotateToNormalize.nth n = ring.nth ((n + 2) % 4) := by
      intro n hn
      rw [nth_rotateToNormalize ring hn, hodd]
    constructor
    · intro h
      exact Or.inr ⟨((hnth 0 (by decide)).symm.trans (h.nth 0 (by decide))).symm,
        ((hnth 1 (by decide)).symm.trans (h.nth 1 (by decide))).symm⟩
    · rintro (h | ⟨h02, h13⟩)
      · omega
      · refine ⟨fun n hn => ?_, rfl⟩
        rw [hnth n hn]
        have hn : n < 4 := hn
        interval_cases n <;> simp [h02, h13]

/-! ## What the ring holds along calls -/

@[simp] theorem after_concat (fill : U64) (calls : List RingCall) (call : RingCall) :
    after fill (calls ++ [call]) = call.run (after fill calls) := by
  simp [after]

@[simp] theorem recorded_concat (fill : U64) (calls : List RingCall) (call : RingCall) :
    recorded fill (calls ++ [call]) = call.record (recorded fill calls) := by
  simp [recorded]

/-- A ring starts where the number of pushes since the last rotation says. -/
theorem start_after (fill : U64) (calls : List RingCall) : (after fill calls).start.val = pushesSince calls % 4 := by
  induction calls using List.reverseRecOn with
  | nil => rfl
  | append_singleton calls call ih =>
    rw [after_concat, pushesSince, List.foldl_concat, ← pushesSince]
    cases call with
    | push generation => simp [RingCall.run, push, RingCall.count, Fin.val_add, ih]
    | rotateToNormalize => rfl

/-- A ring that holds the last four generations recorded is kept by a rotation exactly when it starts at an even
place, or of those generations the first and the third are the same, and the second and the fourth. -/
theorem Holds.normalisable_iff {ring : RingInline} {h : History} (hring : ring.Holds h) :
    ring.Normalisable ↔ ring.start.val % 2 = 0 ∨ (h.recent 0 = h.recent 2 ∧ h.recent 1 = h.recent 3) := by
  have h0 : ring.nth 0 = h.recent 3 := hring 0 (by decide)
  have h1 : ring.nth 1 = h.recent 2 := hring 1 (by decide)
  have h2 : ring.nth 2 = h.recent 1 := hring 2 (by decide)
  have h3 : ring.nth 3 = h.recent 0 := hring 3 (by decide)
  rw [RingInline.normalisable_iff, h0, h1, h2, h3, and_comm, eq_comm (a := h.recent 2), eq_comm (a := h.recent 3)]

/-- Where every rotation keeps the entries, the ring holds the last four generations recorded. -/
theorem holds_after (fill : U64) (calls : List RingCall)
    (hkept : ∀ before, before ++ [RingCall.rotateToNormalize] <+: calls →
      (after fill before).Holds (recorded fill before) →
      (after fill before).Normalisable) : (after fill calls).Holds (recorded fill calls) := by
  induction calls using List.reverseRecOn with
  | nil =>
    intro n hn
    have hn : n < 4 := hn
    interval_cases n <;> rfl
  | append_singleton calls call ih =>
    have hbefore := ih fun before hsoFar => hkept before (hsoFar.trans (List.prefix_append calls [call]))
    rw [after_concat, recorded_concat]
    cases call with
    | push generation => exact History.nth_push_of_recent hbefore generation
    | rotateToNormalize =>
      intro n hn
      exact ((hkept calls (List.prefix_refl _) hbefore).nth n hn).trans (hbefore n hn)

end RingInline

/-! ## Runs that normalise -/

/-- A rotation after these calls finds the entries in order: the number of pushes since the last rotation is even,
or of the last four generations recorded the first and the third are the same, and the second and the fourth. -/
def RotatesInOrder (fill : U64) (before : List RingCall) : Prop :=
  pushesSince before % 2 = 0 ∨
    ((recorded fill before).recent 0 = (recorded fill before).recent 2 ∧
      (recorded fill before).recent 1 = (recorded fill before).recent 3)

/-- Along calls on a ring, each rotation keeps the entries and sets the start to 0, the ring holds the last four
generations recorded at all times, as if there were no rotations, and each push overwrites the oldest of them. -/
structure Normalises (fill : U64) (calls : List RingCall) : Prop where
  kept : ∀ before, before ++ [RingCall.rotateToNormalize] <+: calls → (RingInline.after fill before).Normalisable
  holds : ∀ before, before <+: calls → (RingInline.after fill before).Holds (recorded fill before)
  overwrites : ∀ before generation, before ++ [RingCall.push generation] <+: calls →
    (RingInline.after fill before).nth 0 = (recorded fill before).recent 3 ∧
      (RingInline.after fill (before ++ [RingCall.push generation])).nth 3 = generation ∧
      ∀ n < 3, (RingInline.after fill (before ++ [RingCall.push generation])).nth n =
        (RingInline.after fill before).nth (n + 1)

/-- When normalising does not change a history. Along any calls on a ring, each rotation keeps the entries and so
the last four generations recorded exactly when each comes after an even number of pushes since the one before, or
finds halves that are the same. -/
theorem normalises_iff (fill : U64) (calls : List RingCall) :
    Normalises fill calls ↔ ∀ before, before ++ [RingCall.rotateToNormalize] <+: calls →
      RotatesInOrder fill before := by
  have hkept_iff : ∀ before, (RingInline.after fill before).Holds (recorded fill before) →
      ((RingInline.after fill before).Normalisable ↔ RotatesInOrder fill before) := by
    intro before hbefore
    rw [hbefore.normalisable_iff, RingInline.start_after, Nat.mod_mod_of_dvd _ (by decide), RotatesInOrder]
  constructor
  · intro h before hsoFar
    exact (hkept_iff before (h.holds before ((List.prefix_append _ _).trans hsoFar))).mp (h.kept before hsoFar)
  · intro h
    have hholds : ∀ before, before <+: calls → (RingInline.after fill before).Holds (recorded fill before) :=
      fun before hsoFar => RingInline.holds_after fill before fun earlier hearlier hring =>
        (hkept_iff earlier hring).mpr (h earlier (hearlier.trans hsoFar))
    refine { kept := fun before hsoFar => ?_, holds := hholds, overwrites := fun before generation hsoFar => ?_ }
    · exact (hkept_iff before (hholds before ((List.prefix_append _ _).trans hsoFar))).mpr (h before hsoFar)
    · rw [RingInline.after_concat]
      exact ⟨hholds before ((List.prefix_append _ _).trans hsoFar) 0 (by decide), RingInline.nth_push_last _ _,
        fun n hn => RingInline.nth_push _ _ hn⟩

/-- A ring filled with 0 that records 1 and is normalised has its last entry, 1, in the second place, and 0 in the
last. -/
theorem one_push_is_misplaced : ¬Normalises 0 [.push 1, .rotateToNormalize] ∧
    (RingInline.after 0 [.push 1]).nth 3 = 1 ∧ (RingInline.after 0 [.push 1, .rotateToNormalize]).nth 3 = 0 ∧
      (RingInline.after 0 [.push 1, .rotateToNormalize]).nth 1 = 1 := by
  refine ⟨fun h => ?_, by decide, by decide, by decide⟩
  have hlast := h.holds [.push 1, .rotateToNormalize] (List.prefix_refl _) 3 (by decide)
  exact absurd hlast (by decide)

/-! ## The latest entry -/

/-- A ring filled with a generation, on which generations were pushed. -/
def RingInline.pushed (fill : U64) (generations : List U64) : RingInline :=
  generations.foldl RingInline.push (RingInline.new fill)

/-- A ring of pushes holds the last four generations recorded, the oldest one first, and starts where their number
says. -/
theorem RingInline.pushed_spec (fill : U64) (generations : List U64) :
    (pushed fill generations).Holds ⟨fill, generations⟩ ∧
    (pushed fill generations).start.val = generations.length % 4 := by
  have hring : ∀ (touches : List U64) (cached : CacheMeta),
      (touches.foldl CacheMeta.touch cached).lastAccessed = touches.foldl push cached.lastAccessed :=
        fun touches cached =>
    (List.foldl_hom CacheMeta.lastAccessed fun _ _ => rfl).symm
  have hspec := (⟨fill, generations⟩ : History).ring_cached 0 false
  rw [History.cached, hring] at hspec
  exact hspec

/-- The ring of pushes counts from the latest one: the current entry is the last one pushed, the entries are the last four
recorded from the newest to the oldest, and the score takes them in this order, shifting the older ones further. -/
structure LatestFirst (fill : U64) (earlier : List U64) (last : U64) : Prop where
  current : (RingInline.pushed fill (earlier ++ [last])).current = last
  nth : ∀ n < lastAccessedGens,
    (RingInline.pushed fill (earlier ++ [last])).nth n = (⟨fill, earlier ++ [last]⟩ : History).recent n
  weighted : ∀ n (hn : n < lastAccessedGens),
    (RingInline.pushed fill (earlier ++ [last])).rotateToNormalize.lastAccessed[n] =
      (⟨fill, earlier ++ [last]⟩ : History).recent n

/-- The last four generations recorded read the same backwards, and are all the same after an odd number of pushes. -/
def History.SameBackwards (h : History) : Prop :=
  h.recent 0 = h.recent 3 ∧ h.recent 1 = h.recent 2 ∧ (h.touches.length % 2 = 0 ∨ h.recent 0 = h.recent 1)

/-- A ring that holds the last four generations recorded, the oldest one first, has the newest one first just when
they read the same backwards. -/
theorem RingInline.Holds.latest_iff {ring : RingInline} {h : History} (hring : ring.Holds h) :
    (∀ n < lastAccessedGens, ring.nth n = h.recent n) ↔ h.recent 0 = h.recent 3 ∧ h.recent 1 = h.recent 2 := by
  constructor
  · intro hnth
    exact ⟨(hnth 0 (by decide)).symm.trans (hring 0 (by decide)),
      (hnth 1 (by decide)).symm.trans (hring 1 (by decide))⟩
  · rintro ⟨h03, h12⟩ n hn
    rw [hring n hn]
    have hn : n < 4 := hn
    interval_cases n <;> simp [h03, h12]

/-- Where the ring has the newest of the last four generations first, so has its normalised array just when it
starts at an even place, or they are all the same. -/
theorem RingInline.Holds.weighted_iff {ring : RingInline} {h : History} (hring : ring.Holds h)
    (hlatest : ∀ n < lastAccessedGens, ring.nth n = h.recent n) :
    (∀ n (hn : n < lastAccessedGens), ring.rotateToNormalize.lastAccessed[n] = h.recent n) ↔
      ring.start.val % 2 = 0 ∨ h.recent 0 = h.recent 1 := by
  obtain ⟨h03, h12⟩ := hring.latest_iff.mp hlatest
  have hplace : ∀ n (hn : n < lastAccessedGens),
      ring.rotateToNormalize.lastAccessed[n] = h.recent ((n + 2 * (ring.start.val % 2)) % 4) := fun n hn =>
    (ring.rotateToNormalize_getElem hn).trans (hlatest _ (Nat.mod_lt _ (by decide)))
  rcases Nat.mod_two_eq_zero_or_one ring.start.val with heven | hodd
  · refine iff_of_true (fun n hn => ?_) (Or.inl heven)
    rw [hplace n hn, heven, Nat.mul_zero, Nat.add_zero, Nat.mod_eq_of_lt hn]
  · constructor
    · intro hweighted
      have hfirst := hweighted 0 (by decide)
      rw [hplace, hodd] at hfirst
      exact Or.inr (hfirst.symm.trans h12.symm)
    · rintro (h | h01) n hn
      · omega
      · rw [hplace n hn, hodd]
        have hn : n < 4 := hn
        interval_cases n <;> simp [← h03, ← h12, ← h01]

/-- When the ring's current entry is the latest one. As the oldest entry comes first, the entries of a ring of
pushes come from the newest to the oldest exactly when the last four generations recorded read the same backwards,
and the score takes them so exactly when besides the number of pushes is even or they are all the same. -/
theorem latestFirst_iff (fill : U64) (earlier : List U64) (last : U64) :
    LatestFirst fill earlier last ↔ (⟨fill, earlier ++ [last]⟩ : History).SameBackwards := by
  obtain ⟨hholds, hstart⟩ := RingInline.pushed_spec fill (earlier ++ [last])
  have hlast : (⟨fill, earlier ++ [last]⟩ : History).recent 0 = last := by simp [History.recent]
  have hparity : (RingInline.pushed fill (earlier ++ [last])).start.val % 2 = (earlier ++ [last]).length % 2 := by omega
  constructor
  · intro h
    obtain ⟨h03, h12⟩ := hholds.latest_iff.mp h.nth
    exact ⟨h03, h12, hparity ▸ (hholds.weighted_iff h.nth).mp h.weighted⟩
  · rintro ⟨h03, h12, hcase⟩
    have hnth := hholds.latest_iff.mpr ⟨h03, h12⟩
    exact { current := (hnth 0 (by decide)).trans hlast, nth := hnth,
            weighted := (hholds.weighted_iff hnth).mpr (hparity ▸ hcase) }

/-- A ring filled with 0 on which 1 was pushed calls the 0 current. -/
theorem current_after_one_push : (RingInline.pushed 0 [1]).current = 0 ∧ ¬LatestFirst 0 [] 1 := by
  have hcurrent : (RingInline.pushed 0 [1]).current = 0 := by decide
  exact ⟨hcurrent, fun h => absurd (hcurrent.symm.trans h.current) (by decide)⟩

end Kobzar
