import Mathlib

/-!
# The Rust the code is written in

Machine words, the ways a Rust program stops without a result, and slices whose every access is checked. A word is
a bit vector of its width, so that its order is the unsigned one and its operations wrap as they do in a release
build; where the source relies on a check, the check is written out. An index (`usize`) is a natural number.
-/

namespace Kobzar

/-- The word `u8`. -/
abbrev U8 : Type := BitVec 8

/-- The word `u16`. -/
abbrev U16 : Type := BitVec 16

/-- The word `u32`. -/
abbrev U32 : Type := BitVec 32

/-- The word `u64`. -/
abbrev U64 : Type := BitVec 64

/-- Why a Rust program stops without a result. The last reason is the model's own: a recursion deeper than it was
given fuel for. -/
inductive Panic where
  | indexOutOfBounds
  | assertionFailed
  | sizeMismatch
  | overflow
  | message (text : String)
  | outOfFuel
  deriving DecidableEq, Repr

/-- The result of code that may panic. -/
abbrev Outcome (α : Type) : Type := Except Panic α

/-- Errors of `std::io`. -/
inductive IoError where
  | notFound
  | unexpectedEof
  | other (text : String)
  deriving DecidableEq, Repr

variable {α : Type}

/-- `xs[i]`, checked. -/
def index (xs : List α) (i : Nat) : Outcome α :=
  match xs[i]? with
  | some x => .ok x
  | none => .error .indexOutOfBounds

/-- `xs[i] = x`, checked. -/
def store (xs : List α) (i : Nat) (x : α) : Outcome (List α) :=
  if i < xs.length then .ok (xs.set i x) else .error .indexOutOfBounds

/-- `assert_eq!(a, b)`. -/
def assertEq [DecidableEq α] (a b : α) : Outcome Unit :=
  if a = b then .ok () else .error .assertionFailed

/-- `a + b` on `u8`, checked. -/
def addU8 (a b : U8) : Outcome U8 := if a.toNat + b.toNat < 256 then .ok (a + b) else .error .overflow

/-- `a + n` on `u64`, checked. -/
def addU64 (a : U64) (n : Nat) : Outcome U64 :=
  if a.toNat + n < 2 ^ 64 then .ok (a + BitVec.ofNat 64 n) else .error .overflow

/-- `a - b` on `u64`, checked. -/
def subU64 (a b : U64) : Outcome U64 := if b ≤ a then .ok (a - b) else .error .overflow

/-- `a << k`, checked: the amount is below the width. -/
def shl {w : Nat} (a : BitVec w) (k : Nat) : Outcome (BitVec w) := if k < w then .ok (a <<< k) else .error .overflow

/-- `a >> k`, checked: the amount is below the width. -/
def shr {w : Nat} (a : BitVec w) (k : Nat) : Outcome (BitVec w) := if k < w then .ok (a >>> k) else .error .overflow

/-- `x as u8` for a `u64`. -/
def asU8 (x : U64) : U8 := x.setWidth 8

@[simp] theorem ok_bind {ε α β : Type} (a : α) (f : α → Except ε β) : (Except.ok a >>= f) = f a := rfl

@[simp] theorem error_bind {ε α β : Type} (e : ε) (f : α → Except ε β) : (Except.error e >>= f) = .error e := rfl

/-- A computation of two parts ends when both do. -/
theorem bind_eq_ok {ε α β : Type} {x : Except ε α} {f : α → Except ε β} {b : β} :
    (x >>= f) = .ok b ↔ ∃ a, x = .ok a ∧ f a = .ok b := by
  cases x with
  | error e => simp
  | ok a => simp

/-- An index in range is read. -/
theorem index_of_lt {xs : List α} {i : Nat} (h : i < xs.length) : index xs i = .ok xs[i] := by
  simp [index, List.getElem?_eq_getElem h]

/-- An index out of range panics. -/
theorem index_of_le {xs : List α} {i : Nat} (h : xs.length ≤ i) : index xs i = .error .indexOutOfBounds := by
  simp [index, List.getElem?_eq_none h]

/-- An index in range is written. -/
theorem store_of_lt {xs : List α} {i : Nat} (h : i < xs.length) (x : α) : store xs i x = .ok (xs.set i x) := if_pos h

/-- A sum that fits a byte is computed. -/
theorem addU8_of_lt {a b : U8} (h : a.toNat + b.toNat < 256) : addU8 a b = .ok (a + b) := if_pos h

/-- What a check lets through. -/
theorem ite_eq_ok_iff {ε : Type} {p : Prop} [Decidable p] {a b : α} {e : ε} :
    (if p then Except.ok a else .error e) = .ok b ↔ p ∧ b = a := by
  by_cases hp : p
  · simp [hp, eq_comm]
  · simp [hp]

/-- A sum is computed when it fits a word. -/
theorem addU64_eq_ok_iff {a b : U64} {n : Nat} : addU64 a n = .ok b ↔
    a.toNat + n < 2 ^ 64 ∧ b = a + BitVec.ofNat 64 n :=
  ite_eq_ok_iff

/-- A sum that is computed. -/
theorem addU64_ok {a b : U64} {n : Nat} (h : addU64 a n = .ok b) : b.toNat = a.toNat + n := by
  obtain ⟨hlt, rfl⟩ := addU64_eq_ok_iff.mp h
  rw [BitVec.toNat_add, BitVec.toNat_ofNat, Nat.add_mod_mod, Nat.mod_eq_of_lt hlt]

/-- A difference is computed when it is not below zero. -/
theorem subU64_eq_ok_iff {a b c : U64} : subU64 a b = .ok c ↔ b ≤ a ∧ c = a - b := ite_eq_ok_iff

/-- A shift by less than the width is computed. -/
theorem shl_of_lt {w k : Nat} (a : BitVec w) (h : k < w) : shl a k = .ok (a <<< k) := if_pos h

/-- A shift by less than the width is computed. -/
theorem shr_of_lt {w k : Nat} (a : BitVec w) (h : k < w) : shr a k = .ok (a >>> k) := if_pos h

/-- An assertion that holds changes nothing. -/
@[simp] theorem assertEq_self [DecidableEq α] (a : α) : assertEq a a = .ok () := if_pos rfl

end Kobzar
