import WireFormat.Proofs.Conflict.Calm
import WireFormat.Proofs.Format.Slots
import WireFormat.Proofs.Value.Blame

/-!
# Operations without conflicts

Nothing but the packing of bits meets a container, so nothing else conflicts with one.

* `Harmless` results — of scalars, texts, lengths and lists;
* `Operation.calm_encodeText`, `Operation.calm_decodeTextBytes` — texts end the container at hand;
* `Operation.calm_forItems`, `Operation.calm_decodeItems` — so do items, if there are any.
-/

namespace WireFormat

/-! ## Results -/

section Harmless

/-- Neither values nor bytes conflict with a container. -/
theorem DataError.isConflict_eq_false {fault : DataError} (h : fault.isOfValue ∨ fault.isOfBytes) :
    fault.isConflict = false := by
  cases fault <;> simp_all [isConflict, isOfValue, isOfBytes]

section Blames

variable {α : Type} {result : Except DataError α}

theorem Blames.harmless (h : Blames DataError.isOfValue result) : Harmless result :=
  fun fault hfault ↦ DataError.isConflict_eq_false (.inl (h fault hfault))

theorem Blames.harmless_of_bytes (h : Blames DataError.isOfBytes result) : Harmless result :=
  fun fault hfault ↦ DataError.isConflict_eq_false (.inr (h fault hfault))

end Blames

theorem Flavor.harmless_decodeBits (flavor : Flavor) (repr : ScalarKind) (width bits : Nat) :
    Harmless (flavor.decodeBits repr width bits) := by
  cases flavor with
  | native =>
    unfold decodeBits
    dsimp only
    split
    · exact .ok _
    · exact .error rfl
  | boolean | enum => exact .ok _

namespace Traversal

theorem harmless_sourceLength (traversal : Traversal Members) (source : LengthSource) :
    Harmless (traversal.sourceLength source) := by
  unfold sourceLength
  split
  · exact .error rfl
  · split
    · exact .ok _
    · exact .error rfl

theorem harmless_extent (traversal : Traversal Members) (policy : SizePolicy LengthSource) :
    Harmless (traversal.extent policy) := by
  cases policy with
  | fixed slots => exact .ok _
  | keyed source => exact (traversal.harmless_sourceLength source).bind fun _ ↦ .ok _
  | padded source slots =>
    refine (traversal.harmless_sourceLength source).bind fun length ↦ ?_
    split
    · exact .error rfl
    · exact .ok _

end Traversal

theorem FieldPlan.harmless_keep (traversal : Traversal Members) (name : String)
    (lengthOf : Option String) (value : Value) :
    Harmless (keep traversal name lengthOf value) := by
  unfold keep
  cases lengthOf with
  | none => exact .ok _
  | some key =>
    dsimp only
    split
    · exact .ok _
    · exact .error rfl

end Harmless

/-! ## Writing -/

namespace Operation

variable {clash : Prop} {P : Outline → Prop} {encoding : Encoding}

theorem calm_encodeText (encoding : Encoding) (size : TextSize LengthSource) (value : Value) :
    Calm clash P (encodeText encoding size value) Idle := by
  cases value with
  | text content =>
    rw [encodeText, pure_bind]
    refine WriteM.calm_ofData_bind (encoding.blames_encode content).harmless fun bytes _ ↦ ?_
    cases size with
    | nullTerminated =>
      dsimp only
      split
      · exact .throw (Error.excused_data rfl)
      · exact (Writer.calm_writeBytes bytes).bind fun _ ↦ Writer.calm_writeZeros 1
    | sized policy =>
      refine WriteM.calm_ofData_bind (blames_textSlots _ _ _).harmless fun slots _ ↦ ?_
      split
      · exact .throw (Error.excused_data rfl)
      · exact (Writer.calm_writeBytes bytes).bind fun _ ↦ Writer.calm_writeZeros _
  | _ => exact .throw (Error.excused_data rfl)

/-- Items that end the container leave none, unless there are no items. -/
theorem calm_forItems {action : Nat → Value → WriteM Unit}
    (h : ∀ position item (R : Outline → Prop), Calm clash R (action position item) Idle)
    (position : Nat) (items : List Value) :
    Calm clash P (forItems action position items) (if items = [] then P else Idle) := by
  induction items generalizing position P with
  | nil => exact .pure ()
  | cons item items ih =>
    refine (h position item P).bind fun _ ↦ (ih (position + 1)).imp fun outline houtline ↦ ?_
    rwa [ite_self] at houtline

end Operation

/-! ## Reading -/

namespace Operation

variable {clash : Prop} {P : Outline → Prop}

theorem calm_decodeTextBytes (traversal : Traversal Members) (encoding : Encoding)
    (size : TextSize LengthSource) :
    Calm clash P (decodeTextBytes traversal encoding size) Idle := by
  have hread (kept slots : Nat) : Calm clash P (do
      let bytes ← Reader.readBytes kept
      Reader.skip (slots - kept)
      return bytes) Idle :=
    (Reader.calm_readBytes kept).bind fun _ ↦ (Reader.calm_skip _).bind fun _ ↦ .pure _
  cases size with
  | nullTerminated => exact Reader.calm_readUntilNul
  | sized policy =>
    cases policy with
    | fixed slots => exact (Reader.calm_readBytes slots).bind fun _ ↦ .pure _
    | keyed | padded =>
      exact ReadM.calm_ofData_bind (traversal.harmless_extent _) fun extent _ ↦
        hread extent.1 extent.2

/-- Elements that end the container leave none, unless there are no elements. -/
theorem calm_decodeItems {action : Nat → ReadM Value}
    (h : ∀ position (R : Outline → Prop), Calm clash R (action position) Idle)
    (kept position : Nat) (items : List Value) (count : Nat) :
    Calm clash P (decodeItems action kept position items count)
      (if count = 0 then P else Idle) := by
  induction count generalizing position items P with
  | zero => exact .pure _
  | succ count ih =>
    refine (h position P).bind fun item ↦ (ih (position + 1) _).imp fun outline houtline ↦ ?_
    rwa [ite_self] at houtline

end Operation

end WireFormat
