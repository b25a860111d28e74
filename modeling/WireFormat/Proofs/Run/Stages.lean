import Mathlib.Logic.Relation
import WireFormat.Proofs.Run.Fields

/-!
# Stages of a run

While a value is read, an operation is at work at every moment, somewhere in the bytes and inside
some records.  A `Stage` is such a moment: something is about to be read.  What has been read before
has been read successfully, but what is about to be read need not be.

* `Stage.EntersField`, `Stage.EntersElement` — the way from a record to one of its fields, and from
  a list to one of its elements;
* `Stage.ReadsLength` — a record is read in which a field has carried some length;
* `Stage.exists_origin` — a run that fails has a stage that fails by itself.
-/

namespace WireFormat

/-- A moment of a run: an operation that is about to read something. -/
structure Stage where
  operation : Operation
  traversal : Traversal Members
  reader : Reader

namespace Stage

variable {stage inner : Stage} {traversal around : Traversal Members} {reader next last : Reader}
  {error : Error}

/-- What comes of reading it. -/
def run (stage : Stage) : EStateM.Result Error Reader Value :=
  stage.operation.decode stage.traversal stage.reader

/-- All fields of a record before the given one have been read, and this one is about to be. -/
inductive EntersField : Stage → FieldPlan → Stage → Prop where
  | intro {plan : RecordPlan} {before rest : List FieldPlan} {field : FieldPlan}
      {traversal around : Traversal Members} {reader next : Reader}
      (split : plan.fields = before ++ field :: rest)
      (passed : FieldPlan.pass (traversal.push plan.name []) before
        { reader with active := none } = .ok around next) :
      EntersField ⟨.record plan, traversal, reader⟩ field
        ⟨field.operation, around.enter field.name, next⟩

/-- All elements of a list before the given position have been read, and the one there is about to
be. -/
inductive EntersElement : Stage → Nat → Stage → Prop where
  | intro {element : Operation} {size : SizePolicy LengthSource} {default? : Option Value}
      {traversal : Traversal Members} {reader next : Reader} {kept slots position : Nat}
      {before : List Value} (extent : traversal.extent size = .ok (kept, slots))
      (lt : position < slots)
      (passed : Operation.decodeItems (Operation.decodeItem traversal element) kept 0 [] position
        reader = .ok before next) :
      EntersElement ⟨.list element size default?, traversal, reader⟩ position
        ⟨element, traversal.enterIndex position, next⟩

/-- Something directly inside is about to be read. -/
inductive Enters (stage inner : Stage) : Prop where
  | field (field : FieldPlan) (enters : stage.EntersField field inner) : Enters stage inner
  | element (position : Nat) (enters : stage.EntersElement position inner) : Enters stage inner

/-- Something inside is about to be read, at any depth, or the stage itself. -/
abbrev Leads : Stage → Stage → Prop := Relation.ReflTransGen Enters

/-- A field of a record that carries a length has been read, and this is its number. -/
inductive ReadsLength (stage : Stage) (length : Int) : Prop where
  | intro {field : FieldPlan} {inner : Stage} {value : Value} {next : Reader}
      (enters : stage.EntersField field inner) (carries : field.lengthOf.isSome)
      (read : inner.run = .ok value next) (number : value.toInteger? = some length) :
      ReadsLength stage length

/-- What is entered is smaller. -/
theorem Enters.sizeOf_lt (h : stage.Enters inner) :
    sizeOf inner.operation < sizeOf stage.operation := by
  cases h with
  | field field enters =>
    obtain @⟨plan, before, rest, _, _, _, _, _, split, _⟩ := enters
    have hmem : field ∈ plan.fields := by
      rw [split]
      exact List.mem_append_right before List.mem_cons_self
    have hlt := List.sizeOf_lt_of_mem hmem
    obtain ⟨name, fields, skipped⟩ := plan
    obtain ⟨own, operation, lengthOf, feed, padAfter⟩ := field
    simp only [Operation.record.sizeOf_spec, RecordPlan.mk.sizeOf_spec,
      FieldPlan.mk.sizeOf_spec] at hlt ⊢
    omega
  | element position enters =>
    cases enters
    simp only [Operation.list.sizeOf_spec]
    omega

/-- What a stage has if all that is entered from it have it, all stages have. -/
theorem enters_induction {P : Stage → Prop}
    (step : ∀ stage, (∀ inner, stage.Enters inner → P inner) → P stage) (stage : Stage) : P stage :=
  step stage fun inner _henters ↦ enters_induction step inner
termination_by sizeOf stage.operation
decreasing_by exact _henters.sizeOf_lt

/-! ## Failing runs -/

/-- A list fails because of its length, or in one of its elements. -/
theorem run_list_eq_error {element : Operation} {size : SizePolicy LengthSource}
    {default? : Option Value}
    (h : run ⟨.list element size default?, traversal, reader⟩ = .error error last) :
    (∃ fault, traversal.extent size = .error fault ∧ error = .data fault) ∨
      ∃ position inner cause, EntersElement ⟨.list element size default?, traversal, reader⟩
        position inner ∧ inner.run = .error cause last ∧
        error = cause.locate inner.traversal.path := by
  rw [run, Operation.decode] at h
  obtain h | ⟨⟨kept, slots⟩, _, hdata, h⟩ := run_bind_eq_error_iff.1 h
  · obtain ⟨fault, hfault, rfl, -⟩ := ReadM.run_ofData_eq_error_iff.1 h
    exact .inl ⟨fault, hfault, rfl⟩
  · obtain ⟨hextent, rfl⟩ := ReadM.run_ofData_eq_ok_iff.1 hdata
    obtain h | ⟨items, _, -, h⟩ := run_bind_eq_error_iff.1 h
    · obtain ⟨position, before, middle, hlt, hbefore, hitem⟩ :=
        Operation.exists_of_decodeItems_eq_error h
      rw [Nat.zero_add] at hitem
      obtain ⟨cause, hcause, rfl⟩ := ReadM.run_locate_eq_error_iff.1 hitem
      exact .inr ⟨position, _, cause, .intro hextent hlt hbefore, hcause, rfl⟩
    · cases h

/-- A record fails in one of its fields, or because one of them carries a length that is no
integer. -/
theorem run_record_eq_error {plan : RecordPlan}
    (h : run ⟨.record plan, traversal, reader⟩ = .error error last) :
    ∃ field around middle cause, EntersField ⟨.record plan, traversal, reader⟩ field
        ⟨field.operation, around.enter field.name, middle⟩ ∧
      error = cause.locate (around.enter field.name).path ∧
      (run ⟨field.operation, around.enter field.name, middle⟩ = .error cause last ∨
        ∃ value fault, run ⟨field.operation, around.enter field.name, middle⟩ = .ok value last ∧
          FieldPlan.keep around field.name field.lengthOf value = .error fault ∧
          cause = .data fault) := by
  obtain ⟨name, fields, skipped⟩ := plan
  rw [run, Operation.decode] at h
  obtain h | ⟨_, _, -, h⟩ := run_bind_eq_error_iff.1 h
  · rw [RecordPlan.decode] at h
    obtain h | ⟨_, _, hstart, h⟩ := run_bind_eq_error_iff.1 h
    · cases h
    · cases hstart
      obtain h | ⟨_, _, -, h⟩ := run_bind_eq_error_iff.1 h
      · obtain ⟨before, field, rest, around, middle, hsplit, hpass, hfield⟩ :=
          FieldPlan.exists_of_decodeAll_eq_error h
        obtain ⟨cause, rfl, hcause⟩ := FieldPlan.exists_of_advance_eq_error hfield
        exact ⟨field, around, middle, cause, .intro hsplit hpass, rfl, hcause⟩
      · obtain h | ⟨_, _, -, h⟩ := run_bind_eq_error_iff.1 h <;> cases h
  · cases h

/-- A stage fails, and nothing that is entered from it fails for the same cause. -/
structure IsOrigin (stage : Stage) (cause : Error) : Prop where
  fails : ∃ error last, stage.run = .error error last ∧ error.rootCause = cause
  alone : ∀ inner, stage.Enters inner → ∀ error last, inner.run = .error error last →
    error.rootCause ≠ cause

/-- A run that fails has a stage that fails by itself. -/
theorem exists_origin (h : stage.run = .error error last) :
    ∃ origin, stage.Leads origin ∧ origin.IsOrigin error.rootCause := by
  induction stage using enters_induction generalizing error last with
  | step stage ih =>
    by_cases halone : ∀ inner, stage.Enters inner → ∀ cause last, inner.run = .error cause last →
        cause.rootCause ≠ error.rootCause
    · exact ⟨stage, .refl, ⟨error, last, h, rfl⟩, halone⟩
    · push Not at halone
      obtain ⟨inner, henters, cause, last', hinner, hcause⟩ := halone
      obtain ⟨origin, hleads, horigin⟩ := ih inner henters hinner
      rw [hcause] at horigin
      exact ⟨origin, .head henters hleads, horigin⟩

end Stage

end WireFormat
