import WireFormat.Plan.Encode
import WireFormat.Proofs.Failure
import WireFormat.Proofs.Value.Scalar

/-!
# Faults of values and of bytes

Before anything of a value is written, it is looked at: whether it is of the right kind, fits its
field and is all there.  What is found then is a fault of the value.  Bytes, on the other hand, can
only be at fault where they stand for characters.

* `DataError.isOfValue`, `DataError.isOfBytes` — the faults that values and bytes can have;
* `Blames` — a result that is one of some faults, if it is a fault at all.
-/

namespace WireFormat

namespace DataError

/-- Whether a fault lies in a value that is to be written. -/
def isOfValue : DataError → Bool
  | valueMismatch _ _ | missingField _ | tooManyElements _ _ | tooManyBytes _ _
  | unpaddableText _ _ _ | noDefault _ | interiorNul | unencodable _ | outOfRange _ _
  | bitOverflow _ _ | unrepresentableChar _ => true
  | _ => false

/-- Whether a fault lies in bytes that are to stand for characters. -/
def isOfBytes : DataError → Bool
  | invalidText _ | invalidCodeUnit _ => true
  | _ => false

end DataError

open DataError (isOfValue isOfBytes)

/-- If the result is a fault, then one of those that are allowed. -/
def Blames {α : Type} (allowed : DataError → Bool) (result : Except DataError α) : Prop :=
  ∀ fault, result = .error fault → allowed fault

namespace Blames

variable {α β : Type} {allowed : DataError → Bool} {result : Except DataError α}
  {f : α → Except DataError β}

theorem ok (a : α) : Blames allowed (.ok a : Except DataError α) := nofun

theorem error {fault : DataError} (h : allowed fault) :
    Blames allowed (.error fault : Except DataError α) := by
  rintro _ ⟨⟩
  exact h

theorem bind (h : Blames allowed result) (hmore : ∀ a, Blames allowed (f a)) :
    Blames allowed (result >>= f) := by
  intro fault hfault
  obtain hfault | ⟨a, -, hfault⟩ := bind_eq_error_iff.1 hfault
  · exact h fault hfault
  · exact hmore a fault hfault

end Blames

/-! ## What is written -/

theorem Value.blames_members (value : Value) : Blames isOfValue value.members := by
  cases value with
  | record members => exact .ok members
  | _ => exact .error rfl

theorem Value.blames_integerToRaw (kind : ScalarKind) (number : Int) :
    Blames isOfValue (integerToRaw kind number) := by
  rw [integerToRaw]
  split
  · exact .ok _
  · exact .error rfl

theorem Value.blames_toRaw (kind : ScalarKind) (value : Value) : Blames isOfValue (value.toRaw kind) := by
  unfold toRaw
  split
  case h_2 | h_6 => split <;> first | exact .ok _ | exact .error rfl
  case h_7 => exact .error rfl
  all_goals exact .ok _

theorem blames_bitsOf (number : Int) (signed : Bool) (width : Nat) :
    Blames isOfValue (bitsOf number signed width) := by
  unfold bitsOf
  dsimp only
  generalize (if signed then _ else _ : Int) = least
  generalize (if signed then _ else _ : Int) = bound
  split
  · exact .error rfl
  · exact .ok _

namespace Flavor

theorem blames_boolOf (value : Value) : Blames isOfValue (boolOf value) := by
  cases value with
  | bool value => exact .ok value
  | _ => exact .error rfl

theorem blames_enumOf (value : Value) : Blames isOfValue (enumOf value) := by
  cases value with
  | enum number => exact .ok number
  | _ => exact .error rfl

theorem blames_encode (flavor : Flavor) (repr : ScalarKind) (value : Value) :
    Blames isOfValue (flavor.encode repr value) := by
  cases flavor with
  | native => exact Value.blames_toRaw repr value
  | boolean => exact (blames_boolOf value).bind fun _ ↦ Value.blames_integerToRaw _ _
  | enum => exact (blames_enumOf value).bind fun _ ↦ Value.blames_integerToRaw _ _

theorem blames_encodeBits (flavor : Flavor) (repr : ScalarKind) (width : Nat) (value : Value) :
    Blames isOfValue (flavor.encodeBits repr width value) := by
  refine Blames.bind ?_ fun _ ↦ blames_bitsOf _ _ _
  cases flavor with
  | native => exact (Value.blames_toRaw repr value).bind fun _ ↦ .ok _
  | boolean => exact (blames_boolOf value).bind fun _ ↦ .ok _
  | enum => exact blames_enumOf value

end Flavor

namespace Encoding

theorem blames_encode (encoding : Encoding) (text : String) :
    Blames isOfValue (encoding.encode text) := by
  cases encoding with
  | ascii =>
    rw [encode]
    split
    · exact .ok _
    · exact .error rfl
  | _ => exact .ok _

theorem blames_encodedLength (encoding : Encoding) (text : String) :
    Blames isOfValue (encoding.encodedLength text) := by
  cases encoding with
  | ascii =>
    rw [encodedLength]
    split
    · exact .ok _
    · exact .error rfl
  | _ => exact .ok _

end Encoding

namespace LengthFeed

theorem blames_lengthOf (measure : Measure) (value : Value) :
    Blames isOfValue (lengthOf measure value) := by
  unfold lengthOf
  split
  · exact .ok _
  · exact .error rfl
  · exact Encoding.blames_encodedLength _ _
  · exact .error rfl

theorem isOfValue_of_reach {depth : Nat} {members : Members} {path : List String}
    {fault : MeasureError} (h : reach depth members path = .error fault) :
    fault.2.isOfValue := by
  induction path generalizing depth members with
  | nil => cases h
  | cons name rest ih =>
    rw [reach] at h
    split at h
    · cases h
      rfl
    · exact ih h
    · cases h
      rfl

/-- A length that cannot be measured is a fault of the value. -/
theorem isOfValue_of_measured {feed : LengthFeed} {members : Members} {fault : MeasureError}
    (h : feed.measured members = .error fault) : fault.2.isOfValue := by
  unfold measured at h
  split at h
  · cases h
  · obtain hreach | ⟨inner, -, h⟩ := bind_eq_error_iff.1 h
    · exact isOfValue_of_reach hreach
    · dsimp only at h
      split at h
      · cases h
        rfl
      · obtain ⟨cause, hcause, rfl⟩ := mapError_eq_error_iff.1 h
        exact blames_lengthOf _ _ cause hcause

end LengthFeed

namespace Operation

theorem blames_textSlots (encoding : Encoding) (policy : SizePolicy LengthSource)
    (length : Nat) : Blames isOfValue (textSlots encoding policy length) := by
  cases policy with
  | fixed slots =>
    rw [textSlots]
    split
    · exact .error rfl
    · exact .ok _
  | _ => exact .ok _

theorem blames_freeSlots? (policy : SizePolicy LengthSource) (default? : Option Value)
    (count : Nat) : Blames isOfValue (freeSlots? policy default? count) := by
  unfold freeSlots?
  split
  · exact .ok _
  · split
    · exact .error rfl
    · split
      · exact .ok _
      · split
        · exact .error rfl
        · exact .ok _

end Operation

/-! ## What is read -/

/-- The bytes of an integer are never to blame: they are always in the range of the kind. -/
theorem Value.blames_ofRaw (kind : ScalarKind) (raw : Nat) : Blames isOfBytes (ofRaw kind raw) := by
  cases kind with
  | integer own =>
    rw [ofRaw_integer]
    exact .ok _
  | char =>
    rw [ofRaw]
    split
    · exact .ok _
    · exact .error rfl
  | _ => exact .ok _

theorem Flavor.blames_decode (flavor : Flavor) (repr : ScalarKind) (raw : Nat) :
    Blames isOfBytes (flavor.decode repr raw) := by
  cases flavor with
  | native => exact Value.blames_ofRaw repr raw
  | boolean | enum => exact .ok _

theorem Encoding.blames_decode (encoding : Encoding) (bytes : List UInt8) :
    Blames isOfBytes (encoding.decode bytes) := by
  rw [decode]
  split
  · exact .ok _
  · exact .error rfl

end WireFormat
