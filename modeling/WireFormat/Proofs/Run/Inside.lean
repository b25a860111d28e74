import WireFormat.Proofs.Run.Stages

/-!
# Stages inside a list or a record

The items of a list are read one after another, and so are the fields of a record.  A stage directly
inside is the first of them, or inside what is left once the first has been read.

* `Stage.IsItem`, `Stage.isItem_succ_iff` — the items of a list, from a position on;
* `Stage.IsField`, `Stage.isField_cons_iff` — some fields of a record;
* `Stage.enters_list_iff`, `Stage.enters_record_iff` — what is inside the whole.
-/

namespace WireFormat

/-! ## Items -/

/-- One of `count` elements of a list is about to be read, which are there from a position on. -/
inductive Stage.IsItem (element : Operation) (traversal : Traversal Members)
    (kept position count : Nat) (values : List Value) (reader : Reader) : Stage → Prop where
  | intro {done : Nat} {found : List Value} {middle : Reader} (lt : done < count)
      (passed : Operation.decodeItems (Operation.decodeItem traversal element) kept position values
        done reader = .ok found middle) :
      IsItem element traversal kept position count values reader
        ⟨element, traversal.enterIndex (position + done), middle⟩

namespace Stage

variable {element : Operation} {traversal : Traversal Members} {kept position count : Nat}
  {values : List Value} {reader : Reader} {stage : Stage}

theorem not_isItem_zero : ¬ IsItem element traversal kept position 0 values reader stage := by
  rintro ⟨lt, -⟩
  cases lt

/-- It is the first of them, or one of the others once this has been read. -/
theorem isItem_succ_iff : IsItem element traversal kept position (count + 1) values reader stage ↔
    stage = ⟨element, traversal.enterIndex position, reader⟩ ∨ ∃ read after,
      Operation.decodeItem traversal element position reader = .ok read after ∧
        IsItem element traversal kept (position + 1) count
          (if position < kept then read :: values else values) after stage := by
  constructor
  · rintro @⟨done, found, middle, lt, passed⟩
    cases done with
    | zero =>
      obtain ⟨-, rfl⟩ := run_pure_eq_ok_iff.1 passed
      exact .inl rfl
    | succ done =>
      obtain ⟨read, after, hread, hpassed⟩ := run_bind_eq_ok_iff.1 passed
      rw [← Nat.add_assoc, Nat.add_right_comm]
      exact .inr ⟨read, after, hread, .intro (Nat.lt_of_succ_lt_succ lt) hpassed⟩
  · rintro (rfl | ⟨read, after, hread, @⟨done, found, middle, lt, passed⟩⟩)
    · exact .intro (Nat.succ_pos count) rfl
    · rw [Nat.add_right_comm]
      exact .intro (Nat.succ_lt_succ lt) (run_bind_eq_ok_iff.2 ⟨read, after, hread, passed⟩)

/-- What is inside a list of known extent. -/
theorem enters_list_iff {size : SizePolicy LengthSource} {default? : Option Value} {slots : Nat}
    (hextent : traversal.extent size = .ok (kept, slots)) :
    Enters ⟨.list element size default?, traversal, reader⟩ stage ↔
      IsItem element traversal kept 0 slots [] reader stage := by
  constructor
  · rintro (⟨field, ⟨⟩⟩ | ⟨position, @⟨_, _, _, _, _, _, _, _, _, _, extent, lt, passed⟩⟩)
    obtain ⟨rfl, rfl⟩ := Prod.mk.inj (Except.ok.inj (hextent.symm.trans extent))
    have hitem := IsItem.intro lt passed
    rwa [Nat.zero_add] at hitem
  · rintro ⟨lt, passed⟩
    rw [Nat.zero_add]
    exact .element _ (.intro hextent lt passed)

end Stage

/-! ## Fields -/

/-- One of some fields of a record is about to be read, after those before it. -/
inductive Stage.IsField (plans : List FieldPlan) (traversal : Traversal Members)
    (reader : Reader) : Stage → Prop where
  | intro {before rest : List FieldPlan} {field : FieldPlan} {around : Traversal Members}
      {next : Reader} (split : plans = before ++ field :: rest)
      (passed : FieldPlan.pass traversal before reader = .ok around next) :
      IsField plans traversal reader ⟨field.operation, around.enter field.name, next⟩

namespace Stage

variable {plans : List FieldPlan} {field : FieldPlan} {traversal : Traversal Members}
  {reader : Reader} {stage : Stage}

theorem not_isField_nil : ¬ IsField [] traversal reader stage := by
  rintro @⟨before, rest, field, around, next, split, -⟩
  exact List.append_ne_nil_of_right_ne_nil before (List.cons_ne_nil field rest) split.symm

/-- It is the first of them, or one of the others once this has been read. -/
theorem isField_cons_iff : IsField (field :: plans) traversal reader stage ↔
    stage = ⟨field.operation, traversal.enter field.name, reader⟩ ∨ ∃ after last,
      field.advance traversal reader = .ok after last ∧ IsField plans after last stage := by
  constructor
  · rintro @⟨_ | ⟨_, before⟩, rest, other, around, next, split, passed⟩
    · obtain ⟨rfl, -⟩ := List.cons.inj split
      obtain ⟨rfl, rfl⟩ := run_pure_eq_ok_iff.1 passed
      exact .inl rfl
    · obtain ⟨rfl, hsplit⟩ := List.cons.inj split
      obtain ⟨after, last, hadvance, hpassed⟩ := run_bind_eq_ok_iff.1 passed
      exact .inr ⟨after, last, hadvance, .intro hsplit hpassed⟩
  · rintro (rfl | ⟨after, last, hadvance, @⟨before, rest, other, around, next, split, passed⟩⟩)
    · exact .intro (List.nil_append _).symm rfl
    · have hpassed : FieldPlan.pass traversal (field :: before) reader = .ok around next :=
        run_bind_eq_ok_iff.2 ⟨after, last, hadvance, passed⟩
      exact .intro (congrArg (List.cons field) split) hpassed

/-- What is inside a record. -/
theorem enters_record_iff {plan : RecordPlan} : Enters ⟨.record plan, traversal, reader⟩ stage ↔
    IsField plan.fields (traversal.push plan.name []) { reader with active := none } stage := by
  constructor
  · rintro (⟨field, ⟨split, passed⟩⟩ | ⟨position, ⟨⟩⟩)
    exact .intro split passed
  · rintro ⟨split, passed⟩
    exact .field _ (.intro split passed)

end Stage

/-- A field that is kept becomes a member of the innermost record. -/
theorem FieldPlan.exists_frame_of_keep {traversal after : Traversal Members} {name : String}
    {lengthOf : Option String} {value : Value} {frame : Frame Members}
    {frames : List (Frame Members)} (hframes : traversal.frames = frame :: frames)
    (h : keep traversal name lengthOf value = .ok after) : ∃ lengths,
      after.frames = ⟨frame.typeName, frame.subject.insert name value, lengths⟩ :: frames := by
  obtain ⟨_, steps⟩ := traversal
  obtain rfl := hframes
  cases lengthOf with
  | none =>
    cases h
    exact ⟨_, rfl⟩
  | some key =>
    rw [keep] at h
    split at h
    · cases h
      exact ⟨_, rfl⟩
    · cases h

end WireFormat
