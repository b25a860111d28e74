import Mathlib.Control.Basic
import WireFormat.Plan.Decode
import WireFormat.Proofs.Failure

/-!
# Reading in steps

A record is read field by field and a list element by element.  Both can be stopped before any step,
and if they fail, then in one step, after all steps before have succeeded.

* `FieldPlan.advance`, `FieldPlan.pass` — one field, or some, with what they leave in the traversal;
* `Operation.decode_record_eq_ok` — a record that is read;
* `FieldPlan.exists_of_decodeAll_eq_error` — the field in which a record fails;
* `Operation.exists_of_decodeItems_eq_error` — the element in which a list fails.
-/

namespace WireFormat

variable {reader middle next last : Reader} {traversal after : Traversal Members} {error : Error}

/-! ## Steps of a reader -/

/-- A path does not change what an error comes from. -/
theorem Error.rootCause_locate (path : Path) (error : Error) :
    (error.locate path).rootCause = error.rootCause := by
  cases error <;> rfl

namespace ReadM

variable {α : Type} {x : Except DataError α} {action : ReadM α} {path : Path} {a : α}

@[simp] theorem run_ofData_eq_ok_iff :
    ofData x reader = .ok a next ↔ x = .ok a ∧ reader = next := by
  cases x with
  | error error => simp [ofData]
  | ok b => simp [ofData]

@[simp] theorem run_locate_eq_ok_iff :
    locate path action reader = .ok a next ↔ action reader = .ok a next :=
  run_adaptExcept_eq_ok_iff

theorem run_ofData_eq_error_iff : ofData x reader = .error error next ↔
    ∃ fault, x = .error fault ∧ error = .data fault ∧ reader = next := by
  cases x with
  | error fault =>
    rw [ofData, run_throw_eq_error_iff]
    constructor
    · rintro ⟨rfl, rfl⟩
      exact ⟨fault, rfl, rfl, rfl⟩
    · rintro ⟨_, ⟨⟩, rfl, rfl⟩
      exact ⟨rfl, rfl⟩
  | ok b => simp [ofData]

theorem run_locate_eq_error_iff : locate path action reader = .error error next ↔
    ∃ cause, action reader = .error cause next ∧ cause.locate path = error :=
  run_adaptExcept_eq_error_iff

end ReadM

/-- The reader after a field, which may ask for the end of the container. -/
def Reader.padded (padAfter : Bool) (reader : Reader) : Reader :=
  if padAfter then { reader with active := none } else reader

/-! ## Fields -/

namespace FieldPlan

variable {field : FieldPlan} {fields before rest : List FieldPlan} {value : Value}
  {around : Traversal Members} {members : Members}

/-- Reads one field of a record, and answers with the traversal in which it is kept. -/
def advance (traversal : Traversal Members) (field : FieldPlan) : ReadM (Traversal Members) := do
  let inner := traversal.enter field.name
  let after ← ReadM.locate inner.path do
    let value ← field.operation.decode inner
    ReadM.ofData (keep traversal field.name field.lengthOf value)
  if field.padAfter then
    Reader.resetBits
  return after

/-- Reads some fields of a record, and answers with the traversal in which they are kept. -/
def pass (traversal : Traversal Members) (fields : List FieldPlan) : ReadM (Traversal Members) :=
  fields.foldlM advance traversal

theorem decodeAll_cons (traversal : Traversal Members) (field : FieldPlan)
    (rest : List FieldPlan) : decodeAll traversal (field :: rest) = (do
      let after ← field.advance traversal
      decodeAll after rest) := by
  obtain ⟨name, operation, lengthOf, feed, padAfter⟩ := field
  rw [decodeAll, advance]
  cases padAfter with
  | true => simp only [bind_assoc, pure_bind, if_true]
  | false => simp only [bind_assoc, pure_bind, Bool.false_eq_true, if_false]

theorem advance_eq_ok_iff : field.advance traversal reader = .ok after next ↔
    ∃ value middle, field.operation.decode (traversal.enter field.name) reader =
        .ok value middle ∧
      keep traversal field.name field.lengthOf value = .ok after ∧
      next = middle.padded field.padAfter := by
  have hpad : ∀ (result : Traversal Members) (middle : Reader),
      (do if field.padAfter then Reader.resetBits
          return result : ReadM (Traversal Members)) middle = .ok after next ↔
        result = after ∧ next = middle.padded field.padAfter := by
    intro result middle
    rw [Reader.padded]
    cases field.padAfter with
    | true =>
      change (EStateM.Result.ok result _ : EStateM.Result Error Reader _) = _ ↔ _
      simp [eq_comm]
    | false =>
      change (EStateM.Result.ok result _ : EStateM.Result Error Reader _) = _ ↔ _
      simp [eq_comm]
  rw [advance, run_bind_eq_ok_iff]
  simp only [ReadM.run_locate_eq_ok_iff, run_bind_eq_ok_iff, ReadM.run_ofData_eq_ok_iff]
  constructor
  · rintro ⟨result, _, ⟨value, middle, hdecode, hkeep, rfl⟩, h⟩
    obtain ⟨rfl, rfl⟩ := (hpad _ _).1 h
    exact ⟨value, middle, hdecode, hkeep, rfl⟩
  · rintro ⟨value, middle, hdecode, hkeep, rfl⟩
    exact ⟨after, middle, ⟨value, middle, hdecode, hkeep, rfl⟩, (hpad _ _).2 ⟨rfl, rfl⟩⟩

/-- A field fails while it is read, or because the length that it carries is no integer. -/
theorem exists_of_advance_eq_error (h : field.advance traversal reader = .error error last) :
    ∃ cause, error = cause.locate (traversal.enter field.name).path ∧
      (field.operation.decode (traversal.enter field.name) reader = .error cause last ∨
        ∃ value fault, field.operation.decode (traversal.enter field.name) reader =
            .ok value last ∧
          keep traversal field.name field.lengthOf value = .error fault ∧ cause = .data fault) := by
  rw [advance] at h
  obtain h | ⟨_, _, -, h⟩ := run_bind_eq_error_iff.1 h
  · obtain ⟨cause, hcause, rfl⟩ := ReadM.run_locate_eq_error_iff.1 h
    refine ⟨cause, rfl, ?_⟩
    obtain hdecode | ⟨value, _, hdecode, hkeep⟩ := run_bind_eq_error_iff.1 hcause
    · exact .inl hdecode
    · obtain ⟨fault, hfault, rfl, rfl⟩ := ReadM.run_ofData_eq_error_iff.1 hkeep
      exact .inr ⟨value, fault, hdecode, hfault, rfl⟩
  · split at h <;> cases h

theorem pass_append_singleton (traversal : Traversal Members) (before : List FieldPlan)
    (field : FieldPlan) : pass traversal (before ++ [field]) = (do
      let around ← pass traversal before
      field.advance around) := by
  rw [pass, List.foldlM_append]
  simp only [List.foldlM_cons, List.foldlM_nil, bind_pure]
  rfl

theorem pass_append (traversal : Traversal Members) (before rest : List FieldPlan) :
    pass traversal (before ++ rest) = (do
      let around ← pass traversal before
      pass around rest) :=
  List.foldlM_append

/-- Fields that are read are passed, and what is known of their record then is what it is. -/
theorem decodeAll_eq_ok_iff : decodeAll traversal fields reader = .ok members next ↔
    ∃ around, pass traversal fields reader = .ok around next ∧
      around.subject?.getD [] = members := by
  induction fields generalizing traversal reader with
  | nil =>
    constructor
    · intro h
      obtain ⟨rfl, rfl⟩ := run_pure_eq_ok_iff.1 h
      exact ⟨traversal, rfl, rfl⟩
    · rintro ⟨around, hpass, rfl⟩
      obtain ⟨rfl, rfl⟩ := run_pure_eq_ok_iff.1 hpass
      rfl
  | cons field rest ih =>
    rw [decodeAll_cons, pass, List.foldlM_cons]
    simp only [run_bind_eq_ok_iff, ih]
    constructor
    · rintro ⟨after, middle, hadvance, around, hpass, hmembers⟩
      exact ⟨around, ⟨after, middle, hadvance, hpass⟩, hmembers⟩
    · rintro ⟨around, ⟨after, middle, hadvance, hpass⟩, hmembers⟩
      exact ⟨after, middle, hadvance, around, hpass, hmembers⟩

/-- A record fails in one of its fields. -/
theorem exists_of_decodeAll_eq_error (h : decodeAll traversal fields reader = .error error last) :
    ∃ before field rest around middle, fields = before ++ field :: rest ∧
      pass traversal before reader = .ok around middle ∧
      field.advance around middle = .error error last := by
  induction fields generalizing traversal reader with
  | nil => cases h
  | cons field rest ih =>
    rw [decodeAll_cons] at h
    obtain hfield | ⟨after, middle, hfield, h⟩ := run_bind_eq_error_iff.1 h
    · exact ⟨[], field, rest, traversal, reader, rfl, rfl, hfield⟩
    · obtain ⟨before, other, rest, around, at', rfl, hpass, hother⟩ := ih h
      refine ⟨field :: before, other, rest, around, at', rfl, ?_, hother⟩
      rw [pass, List.foldlM_cons]
      exact run_bind_eq_ok_iff.2 ⟨after, middle, hfield, hpass⟩

end FieldPlan

/-- A record is read as its fields are, and gets the members that are not on the wire then. -/
theorem Operation.decode_record_eq_ok {plan : RecordPlan} {value : Value}
    (h : (Operation.record plan).decode traversal reader = .ok value next) :
    ∃ members last, FieldPlan.decodeAll (traversal.push plan.name []) plan.fields
        { reader with active := none } = .ok members last ∧
      value = .record
        (plan.skipped.foldl (fun members field ↦ Members.insert field.1 field.2 members) members) ∧
      next = { last with active := none } := by
  obtain ⟨name, fields, skipped⟩ := plan
  rw [decode, run_bind_eq_ok_iff] at h
  obtain ⟨_, _, hrecord, h⟩ := h
  obtain ⟨rfl, rfl⟩ := run_pure_eq_ok_iff.1 h
  rw [RecordPlan.decode, run_bind_eq_ok_iff] at hrecord
  obtain ⟨_, _, ⟨⟩, hrecord⟩ := hrecord
  obtain ⟨members, last, hall, hrecord⟩ := run_bind_eq_ok_iff.1 hrecord
  obtain ⟨_, _, ⟨⟩, hrecord⟩ := run_bind_eq_ok_iff.1 hrecord
  obtain ⟨rfl, rfl⟩ := run_pure_eq_ok_iff.1 hrecord
  exact ⟨members, last, hall, rfl, rfl⟩

/-! ## Elements -/

namespace Operation

variable {action : Nat → ReadM Value} {kept position count : Nat} {items : List Value}

/-- How the element of a list at a position is read. -/
def decodeItem (traversal : Traversal Members) (element : Operation) (position : Nat) :
    ReadM Value :=
  ReadM.locate (traversal.enterIndex position).path
    (element.decode (traversal.enterIndex position))

/-- A list fails in one of its elements. -/
theorem exists_of_decodeItems_eq_error
    (h : decodeItems action kept position items count reader = .error error last) :
    ∃ done before middle, done < count ∧
      decodeItems action kept position items done reader = .ok before middle ∧
      action (position + done) middle = .error error last := by
  induction count generalizing position items reader with
  | zero => cases h
  | succ count ih =>
    rw [decodeItems] at h
    obtain hitem | ⟨item, middle, hitem, h⟩ := run_bind_eq_error_iff.1 h
    · exact ⟨0, items.reverse, reader, Nat.succ_pos count, rfl, hitem⟩
    · obtain ⟨done, before, at', hlt, hbefore, herror⟩ := ih h
      refine ⟨done + 1, before, at', Nat.succ_lt_succ hlt, ?_, ?_⟩
      · rw [decodeItems]
        exact run_bind_eq_ok_iff.2 ⟨item, middle, hitem, hbefore⟩
      · rw [Nat.add_right_comm] at herror
        exact herror

/-- Items that are read are read in two parts. -/
theorem decodeItems_add_eq_ok_iff {values : List Value} (first more : Nat) :
    decodeItems action kept position items (first + more) reader = .ok values last ↔
      ∃ found middle, decodeItems action kept position items first reader = .ok found middle ∧
        decodeItems action kept (position + first) found.reverse more middle =
          .ok values last := by
  induction first generalizing position items reader with
  | zero =>
    rw [Nat.zero_add]
    constructor
    · exact fun h ↦ ⟨items.reverse, reader, rfl, by rwa [List.reverse_reverse]⟩
    · rintro ⟨found, middle, hfirst, h⟩
      obtain ⟨rfl, rfl⟩ := run_pure_eq_ok_iff.1 hfirst
      rwa [List.reverse_reverse] at h
  | succ first ih =>
    rw [Nat.add_right_comm, decodeItems, decodeItems]
    simp only [run_bind_eq_ok_iff, ih, Nat.add_assoc, Nat.add_comm 1]
    constructor
    · rintro ⟨item, middle, hitem, found, next, hfirst, h⟩
      exact ⟨found, next, ⟨item, middle, hitem, hfirst⟩, h⟩
    · rintro ⟨found, next, ⟨item, middle, hitem, hfirst⟩, h⟩
      exact ⟨item, middle, hitem, found, next, hfirst, h⟩

end Operation

end WireFormat
