import Kobzar.Ident
import Kobzar.Library.Runs
import Kobzar.Schema.TypeId

/-!
# The catalogue of types

`Types` keeps two maps: the names of structures with their type IDs, and the types by ID. They are updated one
after the other, and the operations fail at different points. What an operation did is told once (`TypesEffect`,
`Types.effect_of_step`); that every name leads to a structure of its own, and that a structure changes only under
its own ID, follows by cases (`typesKept_of_run`). No operation looks into a structure, so its type is a parameter.
-/

namespace Kobzar

open Runs

/-- `GenericInstance`: a generic type and its parameters. -/
structure GenericInstance where
  genericType : TypeId
  typeParams : List TypeId
  deriving DecidableEq, Repr

/-- `TypeKind`: the kind of a type in the schema. -/
inductive TypeKind (Struct : Type) where
  | struct (struc : Struct)
  | tuple (types : List TypeId)
  | genericInstance (generic : GenericInstance)
  deriving DecidableEq, Repr

/-- Why a structure is not registered. -/
inductive RegisterStructError where
  | nameTaken (name : IdentPath)
  deriving DecidableEq, Repr

/-- Why there is no structure of an ID. -/
inductive GetStructError where
  | notFound (id : TypeId)
  | notStruct (id : TypeId)
  deriving DecidableEq, Repr

/-- `Types`: the types defined in the schema. -/
structure Types (Struct : Type) where
  structNamesToId : AList fun _ : IdentPath => TypeId
  types : AList fun _ : TypeId => TypeKind Struct

variable {Struct : Type}

namespace TypeKind

/-- `is_struct`. -/
def isStruct : TypeKind Struct → Bool
  | .struct _ => true
  | _ => false

/-- `try_into_struct`. -/
def tryIntoStruct : TypeKind Struct → Except Unit Struct
  | .struct struc => .ok struc
  | _ => .error ()

/-- `try_into_struct().expect("we checked that the type is a struct")`. -/
def expectStruct (kind : TypeKind Struct) : Outcome Struct :=
  match kind.tryIntoStruct with
  | .ok struc => .ok struc
  | .error _ => .error (.message "we checked that the type is a struct")

end TypeKind

namespace Types

/-- `Types::default`: no names and no types. -/
def empty : Types Struct where
  structNamesToId := ∅
  types := ∅

/-- `ensure_free_name`. -/
def ensureFreeName (self : Types Struct) (name : IdentPath) : Except RegisterStructError IdentPath :=
  if (self.structNamesToId.lookup name).isSome then .error (.nameTaken name) else .ok name

/-- `add_struct`: the name first, then the structure. -/
def addStruct (self : Types Struct) (name : IdentPath) (struc : Struct) (typeId : TypeId) :
    Types Struct × Except RegisterStructError Unit :=
  match self.ensureFreeName name with
  | .error e => (self, .error e)
  | .ok name =>
    let self := { self with structNamesToId := self.structNamesToId.insert name typeId }
    let self := { self with types := self.types.insert typeId (.struct struc) }
    (self, .ok ())

/-- `struct_ref`. -/
def structRef (self : Types Struct) (id : TypeId) : Except GetStructError Struct :=
  match self.types.lookup id with
  | some (.struct struc) => .ok struc
  | some _ => .error (.notStruct id)
  | none => .error (.notFound id)

/-- `struct_mut`, and what the caller does to the structure it is given. -/
def structMut (self : Types Struct) (id : TypeId) (edit : Struct → Struct) :
    Types Struct × Except GetStructError Unit :=
  match self.types.lookup id with
  | some (.struct struc) => ({ self with types := self.types.insert id (.struct (edit struc)) }, .ok ())
  | some _ => (self, .error (.notStruct id))
  | none => (self, .error (.notFound id))

/-- `replace_struct`: the structure there was, or the new one with the error. -/
def replaceStruct (self : Types Struct) (id : TypeId) (newStruct : Struct) :
    Outcome (Types Struct × Except (Struct × GetStructError) Struct) :=
  match self.types.lookup id with
  | none => .ok (self, .error (newStruct, .notFound id))
  | some entry =>
    if entry.isStruct then do
      let old ← entry.expectStruct
      return ({ self with types := self.types.insert id (.struct newStruct) }, .ok old)
    else .ok (self, .error (newStruct, .notStruct id))

end Types

/-! ## The catalogue as a system -/

/-- An operation on the catalogue. -/
inductive TypesOp (Struct : Type) where
  | addStruct (name : IdentPath) (struc : Struct) (typeId : TypeId)
  | replaceStruct (id : TypeId) (newStruct : Struct)
  | structMut (id : TypeId) (edit : Struct → Struct)

/-- What an operation returns. -/
inductive TypesReturn (Struct : Type) where
  | added (result : Except RegisterStructError Unit)
  | replaced (result : Except (Struct × GetStructError) Struct)
  | edited (result : Except GetStructError Unit)

namespace TypesReturn

/-- The operation returned an error. -/
def isError : TypesReturn Struct → Bool
  | .added (.error _) => true
  | .replaced (.error _) => true
  | .edited (.error _) => true
  | _ => false

end TypesReturn

/-- The operation may change the structure of the ID. -/
def TypesOp.Targets (op : TypesOp Struct) (id : TypeId) : Prop :=
  (∃ newStruct, op = .replaceStruct id newStruct) ∨ ∃ edit, op = .structMut id edit

namespace Types

/-- One operation. -/
def step (self : Types Struct) : TypesOp Struct → Outcome (Types Struct × TypesReturn Struct)
  | .addStruct name struc typeId =>
    let (self, result) := self.addStruct name struc typeId
    .ok (self, .added result)
  | .replaceStruct id newStruct => do
    let (self, result) ← self.replaceStruct id newStruct
    return (self, .replaced result)
  | .structMut id edit =>
    let (self, result) := self.structMut id edit
    .ok (self, .edited result)

/-- A structure is added under a type ID that is not in the catalogue. -/
def Fresh (self : Types Struct) : TypesOp Struct → Prop
  | .addStruct _ _ typeId => self.types.lookup typeId = none
  | _ => True

/-- One operation takes the catalogue to another, whatever it returns. -/
def Goes (self : Types Struct) (op : TypesOp Struct) (after : Types Struct) : Prop :=
  ∃ returned, self.step op = .ok (after, returned)

/-- A run of operations that add structures under new type IDs. -/
def Run (self after : Types Struct) : Prop := Reaches Fresh Goes self after

/-- A run of which no operation may change the structure of the ID. -/
def RunBeside (id : TypeId) (self after : Types Struct) : Prop :=
  Reaches (fun s op => s.Fresh op ∧ ¬op.Targets id) Goes self after

/-- Every name leads to a structure, and no two to the same. -/
structure Consistent (s : Types Struct) : Prop where
  resolves : ∀ name id, s.structNamesToId.lookup name = some id → ∃ struc, s.structRef id = .ok struc
  injective : ∀ name name' id, s.structNamesToId.lookup name = some id → s.structNamesToId.lookup name' = some id →
    name = name'

end Types

/-! ## What an operation does -/

/-- What an operation finds, does and returns: it succeeds and changes one entry of a map or of both, or it fails
and changes nothing. -/
inductive TypesEffect (s : Types Struct) : TypesOp Struct → Types Struct → TypesReturn Struct → Prop
  | added {name : IdentPath} {struc : Struct} {typeId : TypeId} (free : s.structNamesToId.lookup name = none) :
    TypesEffect s (.addStruct name struc typeId)
      { structNamesToId := s.structNamesToId.insert name typeId, types := s.types.insert typeId (.struct struc) }
      (.added (.ok ()))
  | nameTaken {name : IdentPath} {struc : Struct} {typeId : TypeId}
    (taken : (s.structNamesToId.lookup name).isSome = true) :
    TypesEffect s (.addStruct name struc typeId) s (.added (.error (.nameTaken name)))
  | replaced {id : TypeId} {newStruct old : Struct} (there : s.structRef id = .ok old) :
    TypesEffect s (.replaceStruct id newStruct) { s with types := s.types.insert id (.struct newStruct) }
      (.replaced (.ok old))
  | notReplaced {id : TypeId} {newStruct : Struct} {e : GetStructError} (missing : s.structRef id = .error e) :
    TypesEffect s (.replaceStruct id newStruct) s (.replaced (.error (newStruct, e)))
  | edited {id : TypeId} {edit : Struct → Struct} {old : Struct} (there : s.structRef id = .ok old) :
    TypesEffect s (.structMut id edit) { s with types := s.types.insert id (.struct (edit old)) } (.edited (.ok ()))
  | notEdited {id : TypeId} {edit : Struct → Struct} {e : GetStructError} (missing : s.structRef id = .error e) :
    TypesEffect s (.structMut id edit) s (.edited (.error e))

namespace Types

/-- Adding a structure has its effect. -/
theorem effect_addStruct (s : Types Struct) (name : IdentPath) (struc : Struct) (typeId : TypeId) :
    TypesEffect s (.addStruct name struc typeId) (s.addStruct name struc typeId).1
      (.added (s.addStruct name struc typeId).2) := by
  unfold addStruct ensureFreeName
  by_cases htaken : (s.structNamesToId.lookup name).isSome = true
  · rw [if_pos htaken]
    exact .nameTaken htaken
  · rw [if_neg htaken]
    exact .added (by simpa using htaken)

/-- Replacing a structure has its effect; the check before it makes the conversion safe. -/
theorem effect_replaceStruct (s : Types Struct) (id : TypeId) (newStruct : Struct) :
    ∃ after result, s.replaceStruct id newStruct = .ok (after, result) ∧
      TypesEffect s (.replaceStruct id newStruct) after (.replaced result) := by
  unfold replaceStruct
  cases hlookup : s.types.lookup id with
  | none => exact ⟨s, _, rfl, .notReplaced (by rw [structRef, hlookup])⟩
  | some entry =>
    cases entry with
    | struct struc => exact ⟨_, _, rfl, .replaced (by rw [structRef, hlookup])⟩
    | tuple types => exact ⟨s, _, rfl, .notReplaced (by rw [structRef, hlookup])⟩
    | genericInstance generic => exact ⟨s, _, rfl, .notReplaced (by rw [structRef, hlookup])⟩

/-- Editing a structure has its effect. -/
theorem effect_structMut (s : Types Struct) (id : TypeId) (edit : Struct → Struct) :
    TypesEffect s (.structMut id edit) (s.structMut id edit).1 (.edited (s.structMut id edit).2) := by
  unfold structMut
  cases hlookup : s.types.lookup id with
  | none => exact .notEdited (by rw [structRef, hlookup])
  | some entry =>
    cases entry with
    | struct struc => exact .edited (by rw [structRef, hlookup])
    | tuple types => exact .notEdited (by rw [structRef, hlookup])
    | genericInstance generic => exact .notEdited (by rw [structRef, hlookup])

/-- Every operation ends without a panic, and has its effect. -/
theorem effect_of_step (s : Types Struct) (op : TypesOp Struct) :
    ∃ after returned, s.step op = .ok (after, returned) ∧ TypesEffect s op after returned := by
  cases op with
  | addStruct name struc typeId => exact ⟨_, _, rfl, s.effect_addStruct name struc typeId⟩
  | replaceStruct id newStruct =>
    obtain ⟨after, result, hrun, heffect⟩ := s.effect_replaceStruct id newStruct
    exact ⟨after, .replaced result, by rw [step, hrun, ok_bind]; rfl, heffect⟩
  | structMut id edit => exact ⟨_, _, rfl, s.effect_structMut id edit⟩

/-- What a step goes to is what its operation has the effect of. -/
theorem Goes.effect {s after : Types Struct} {op : TypesOp Struct} (h : s.Goes op after) :
    ∃ returned, TypesEffect s op after returned := by
  obtain ⟨returned, hstep⟩ := h
  obtain ⟨after', returned', hstep', heffect⟩ := s.effect_of_step op
  cases hstep.symm.trans hstep'
  exact ⟨returned, heffect⟩

/-! ## What a written entry changes -/

/-- The structure written under an ID is found there. -/
theorem structRef_insert (names : AList fun _ : IdentPath => TypeId) (types : AList fun _ : TypeId => TypeKind Struct)
    (id : TypeId) (struc : Struct) :
    structRef { structNamesToId := names, types := types.insert id (.struct struc) } id = .ok struc := by
  simp only [structRef, AList.lookup_insert]

/-- What is found under any other ID is what was found there. -/
theorem structRef_insert_ne (s : Types Struct) (names : AList fun _ : IdentPath => TypeId) {id id' : TypeId}
    (hne : id' ≠ id) (kind : TypeKind Struct) :
    structRef { structNamesToId := names, types := s.types.insert id kind } id' = s.structRef id' := by
  simp only [structRef, AList.lookup_insert_ne hne]

/-- A type that is there is not at an ID that is in no map. -/
theorem ne_of_structRef {s : Types Struct} {id fresh : TypeId} {struc : Struct} (h : s.structRef id = .ok struc)
    (hfresh : s.types.lookup fresh = none) : id ≠ fresh := by
  rintro rfl
  rw [structRef, hfresh] at h
  cases h

end Types

namespace TypesEffect

variable {s after : Types Struct} {op : TypesOp Struct} {returned : TypesReturn Struct}

/-- An operation that returns an error leaves both maps as they were. -/
theorem eq_of_isError (h : TypesEffect s op after returned) (herror : returned.isError = true) : after = s := by
  cases h with
  | added => cases herror
  | nameTaken => rfl
  | replaced => cases herror
  | notReplaced => rfl
  | edited => cases herror
  | notEdited => rfl

/-- A structure stays as it is under an operation on another ID. -/
theorem structRef_of_beside (h : TypesEffect s op after returned) (hfresh : s.Fresh op) {id : TypeId} {struc : Struct}
    (hstruc : s.structRef id = .ok struc) (hbeside : ¬op.Targets id) : after.structRef id = .ok struc := by
  cases h with
  | added => rw [s.structRef_insert_ne _ (Types.ne_of_structRef hstruc hfresh), hstruc]
  | nameTaken => exact hstruc
  | replaced =>
    rw [s.structRef_insert_ne, hstruc]
    rintro rfl
    exact hbeside (Or.inl ⟨_, rfl⟩)
  | notReplaced => exact hstruc
  | edited =>
    rw [s.structRef_insert_ne, hstruc]
    rintro rfl
    exact hbeside (Or.inr ⟨_, rfl⟩)
  | notEdited => exact hstruc

/-- No operation takes a structure away. -/
theorem exists_structRef (h : TypesEffect s op after returned) {id : TypeId} {struc : Struct}
    (hstruc : s.structRef id = .ok struc) : ∃ struc', after.structRef id = .ok struc' := by
  have hwrite : ∀ (names : AList fun _ : IdentPath => TypeId) id' (written : Struct), ∃ struc',
      Types.structRef { structNamesToId := names, types := s.types.insert id' (.struct written) } id = .ok struc' := by
    intro names id' written
    by_cases hid : id = id'
    · subst hid
      exact ⟨written, Types.structRef_insert names s.types id written⟩
    · exact ⟨struc, by rw [s.structRef_insert_ne names hid, hstruc]⟩
  cases h with
  | added => exact hwrite _ _ _
  | nameTaken => exact ⟨struc, hstruc⟩
  | replaced => exact hwrite _ _ _
  | notReplaced => exact ⟨struc, hstruc⟩
  | edited => exact hwrite _ _ _
  | notEdited => exact ⟨struc, hstruc⟩

/-- What is registered after an operation was registered before, or has just been added. -/
theorem names (h : TypesEffect s op after returned) {name : IdentPath} {id : TypeId}
    (hname : after.structNamesToId.lookup name = some id) :
    s.structNamesToId.lookup name = some id ∨ ∃ struc, op = .addStruct name struc id ∧
      after.structRef id = .ok struc := by
  cases h with
  | @added added struc typeId =>
    by_cases hadded : name = added
    · subst hadded
      rw [AList.lookup_insert, Option.some.injEq] at hname
      subst hname
      exact Or.inr ⟨struc, rfl, Types.structRef_insert _ _ _ _⟩
    · rw [AList.lookup_insert_ne hadded] at hname
      exact Or.inl hname
  | nameTaken => exact Or.inl hname
  | replaced => exact Or.inl hname
  | notReplaced => exact Or.inl hname
  | edited => exact Or.inl hname
  | notEdited => exact Or.inl hname

/-- An operation keeps the catalogue consistent. -/
theorem consistent (h : TypesEffect s op after returned) (hfresh : s.Fresh op) (hs : s.Consistent) :
    after.Consistent where
  resolves name id hname := by
    rcases h.names hname with hbefore | ⟨struc, -, hstruc⟩
    · obtain ⟨struc, hstruc⟩ := hs.resolves name id hbefore
      exact h.exists_structRef hstruc
    · exact ⟨struc, hstruc⟩
  injective name name' id hname hname' := by
    -- an ID that a name led to before is not a fresh one
    have hold : ∀ name struc, s.structNamesToId.lookup name = some id →
        ∀ added, op ≠ .addStruct added struc id := by
      rintro name struc hname added rfl
      obtain ⟨struc', hstruc⟩ := hs.resolves name id hname
      exact Types.ne_of_structRef hstruc hfresh rfl
    rcases h.names hname with hbefore | ⟨struc, hop, -⟩
    · rcases h.names hname' with hbefore' | ⟨struc, hop, -⟩
      · exact hs.injective name name' id hbefore hbefore'
      · exact absurd hop (hold name struc hbefore name')
    · rcases h.names hname' with hbefore' | ⟨struc', hop', -⟩
      · exact absurd hop (hold name' struc hbefore' name)
      · cases hop.symm.trans hop'
        rfl

end TypesEffect

/-! ## What an operation answers -/

/-- What an operation answers: an error when it changes nothing, or else what it was asked for. A structure that is
replaced is returned, one that could not be put is handed back, and no other structure is touched. -/
structure TypesAnswer (s : Types Struct) (op : TypesOp Struct) (after : Types Struct)
    (returned : TypesReturn Struct) : Prop where
  unchanged : returned.isError = true → after = s
  replaced : ∀ id newStruct, op = .replaceStruct id newStruct →
    (∃ old, s.structRef id = .ok old ∧ after.structRef id = .ok newStruct ∧ returned = .replaced (.ok old)) ∨
      ∃ e, s.structRef id = .error e ∧ returned = .replaced (.error (newStruct, e))
  edited : ∀ id edit, op = .structMut id edit →
    (∃ old, s.structRef id = .ok old ∧ after.structRef id = .ok (edit old) ∧ returned = .edited (.ok ())) ∨
      ∃ e, s.structRef id = .error e ∧ returned = .edited (.error e)
  added : ∀ name struc typeId, op = .addStruct name struc typeId →
    (s.structNamesToId.lookup name = none ∧ after.structNamesToId.lookup name = some typeId ∧
      after.structRef typeId = .ok struc ∧ returned = .added (.ok ())) ∨
      ((s.structNamesToId.lookup name).isSome = true ∧ returned = .added (.error (.nameTaken name)))

/-- An operation answers as its effect says. -/
theorem TypesEffect.answer {s after : Types Struct} {op : TypesOp Struct} {returned : TypesReturn Struct}
    (h : TypesEffect s op after returned) : TypesAnswer s op after returned where
  unchanged := h.eq_of_isError
  replaced id newStruct hop := by
    subst hop
    cases h with
    | replaced there => exact Or.inl ⟨_, there, Types.structRef_insert _ _ _ _, rfl⟩
    | notReplaced missing => exact Or.inr ⟨_, missing, rfl⟩
  edited id edit hop := by
    subst hop
    cases h with
    | edited there => exact Or.inl ⟨_, there, Types.structRef_insert _ _ _ _, rfl⟩
    | notEdited missing => exact Or.inr ⟨_, missing, rfl⟩
  added name struc typeId hop := by
    subst hop
    cases h with
    | added free => exact Or.inl ⟨free, AList.lookup_insert _, Types.structRef_insert _ _ _ _, rfl⟩
    | nameTaken taken => exact Or.inr ⟨taken, rfl⟩

namespace Types

/-- The empty catalogue is consistent. -/
theorem consistent_empty : (empty : Types Struct).Consistent where
  resolves name id h := by
    rw [empty, AList.lookup_empty] at h
    cases h
  injective name name' id h := by
    rw [empty, AList.lookup_empty] at h
    cases h

/-- Every run keeps the catalogue consistent. -/
theorem Run.consistent {s after : Types Struct} (h : Run s after) (hs : s.Consistent) : after.Consistent := by
  refine Reaches.inv (fun s : Types Struct => s.Consistent) ?_ h hs
  intro s op after hs hfresh hstep
  obtain ⟨returned, heffect⟩ := hstep.effect
  exact heffect.consistent hfresh hs

/-- A structure stays as it is in every run beside its ID. -/
theorem RunBeside.structRef {s after : Types Struct} {id : TypeId} {struc : Struct} (h : RunBeside id s after)
    (hstruc : s.structRef id = .ok struc) : after.structRef id = .ok struc := by
  refine Reaches.inv (fun s : Types Struct => s.structRef id = .ok struc) ?_ h hstruc
  rintro s op after hstruc ⟨hfresh, hbeside⟩ hstep
  obtain ⟨returned, heffect⟩ := hstep.effect
  exact heffect.structRef_of_beside hfresh hstruc hbeside

end Types

/-- The catalogue, in every state that a run from the empty one reaches: every name leads to a structure of its
own, a structure changes in no run beside its ID, and every operation ends without a panic and answers as it
should, an error only when it changes nothing. -/
theorem typesKept_of_run {Struct : Type} {s : Types Struct} (hrun : Types.Run .empty s) :
    s.Consistent ∧
      (∀ id struc after, s.structRef id = .ok struc → Types.RunBeside id s after →
        after.structRef id = .ok struc) ∧
      ∀ op, ∃ after returned, s.step op = .ok (after, returned) ∧ TypesAnswer s op after returned := by
  refine ⟨hrun.consistent Types.consistent_empty, fun id struc after hstruc hbeside => hbeside.structRef hstruc,
    fun op => ?_⟩
  obtain ⟨after, returned, hstep, heffect⟩ := s.effect_of_step op
  exact ⟨after, returned, hstep, heffect.answer⟩

/-- Two structures are added, one of them is replaced, and a third is refused for its name: both names lead to the
structures. -/
theorem typesKept_of_run_two_structs : ∃ s₁ s₂ s₃ s₄ : Types String,
    Types.empty.step (.addStruct ⟨"user"⟩ "id: u64" ⟨1⟩) = .ok (s₁, .added (.ok ())) ∧
    s₁.step (.addStruct ⟨"role"⟩ "name: text" ⟨2⟩) = .ok (s₂, .added (.ok ())) ∧
    s₂.step (.replaceStruct ⟨1⟩ "id: u32") = .ok (s₃, .replaced (.ok "id: u64")) ∧
    s₃.step (.addStruct ⟨"user"⟩ "key: u64" ⟨3⟩) = .ok (s₄, .added (.error (.nameTaken ⟨"user"⟩))) ∧
    s₄.Consistent ∧ s₄.structRef ⟨1⟩ = .ok "id: u32" ∧ s₄.structRef ⟨2⟩ = .ok "name: text" := by
  have hfirst : Types.Run (.empty : Types String) _ :=
    (Reaches.refl _).snoc (.addStruct ⟨"user"⟩ "id: u64" ⟨1⟩) rfl ⟨_, rfl⟩
  have hsecond : Types.Run (.empty : Types String) _ :=
    hfirst.snoc (.addStruct ⟨"role"⟩ "name: text" ⟨2⟩) rfl ⟨_, rfl⟩
  have hthird : Types.Run (.empty : Types String) _ :=
    hsecond.snoc (.replaceStruct ⟨1⟩ "id: u32") trivial ⟨_, rfl⟩
  have hrun : Types.Run (.empty : Types String) _ :=
    hthird.snoc (.addStruct ⟨"user"⟩ "key: u64" ⟨3⟩) rfl ⟨_, rfl⟩
  exact ⟨_, _, _, _, rfl, rfl, rfl, rfl, (typesKept_of_run hrun).1, rfl, rfl⟩

end Kobzar
