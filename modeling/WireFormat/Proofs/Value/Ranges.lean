import WireFormat.Proofs.Value.Readable

/-!
# What can be held

Which values a scalar or a bit field can hold, without the raw bits that they are written as.

* `Value.IsScalar` — the values of a scalar kind;
* `Flavor.Stands` — the number that a value stands for in an integer on the wire;
* `Value.exists_toRaw_iff`, `Flavor.exists_encodeBits_iff` — exactly these can be written.
-/

namespace WireFormat

variable {value : Value} {own : IntegerKind} {number : Int} {width : Nat}

/-- The values of a scalar kind.  Of the characters only those that are one UTF-16 code unit are. -/
inductive Value.IsScalar : ScalarKind → Value → Prop where
  | bool (truth : Bool) : IsScalar .bool (.bool truth)
  | integer (kind : IntegerKind) (pattern : BitVec kind.bits) :
      IsScalar (.integer kind) (.integer kind pattern)
  | f32 (number : Binary32) : IsScalar .f32 (.f32 number)
  | f64 (number : Binary64) : IsScalar .f64 (.f64 number)
  | decimal (number : Decimal) : IsScalar .decimal (.decimal number)
  | char {char : Char} (lt : char.toNat < 0x10000) : IsScalar .char (.char char)

/-- A value stands for a number, if its flavour is that of an integer of a kind. -/
inductive Flavor.Stands (own : IntegerKind) : Flavor → Value → Int → Prop where
  | native (pattern : BitVec own.bits) : Stands own native (.integer own pattern) (own.read pattern)
  | boolean (truth : Bool) : Stands own boolean (.bool truth) truth.toInt
  | enum (number : Int) : Stands own enum (.enum number) number

/-! ## Scalars -/

namespace Value

/-- The values of a scalar kind are those that have raw bits of the kind. -/
theorem exists_toRaw_iff {kind : ScalarKind} :
    (∃ raw, value.toRaw kind = .ok raw) ↔ value.IsScalar kind := by
  constructor
  · rintro ⟨raw, hraw⟩
    cases kind with
    | bool =>
      cases value with
      | bool truth => exact .bool truth
      | _ => cases hraw
    | integer own =>
      cases value with
      | integer found pattern =>
        rw [toRaw] at hraw
        split at hraw
        · next hfound =>
          subst hfound
          exact .integer found pattern
        · cases hraw
      | _ => cases hraw
    | f32 =>
      cases value with
      | f32 number => exact .f32 number
      | _ => cases hraw
    | f64 =>
      cases value with
      | f64 number => exact .f64 number
      | _ => cases hraw
    | decimal =>
      cases value with
      | decimal number => exact .decimal number
      | _ => cases hraw
    | char =>
      cases value with
      | char char =>
        rw [toRaw] at hraw
        split at hraw
        · next hlt => exact .char hlt
        · cases hraw
      | _ => cases hraw
  · rintro (_ | ⟨own, pattern⟩ | _ | _ | _ | hlt)
    · exact ⟨_, rfl⟩
    · exact ⟨_, toRaw_integer own pattern⟩
    · exact ⟨_, rfl⟩
    · exact ⟨_, rfl⟩
    · exact ⟨_, rfl⟩
    · exact ⟨_, if_pos hlt⟩

theorem isScalar_zero (kind : ScalarKind) : (zero kind).IsScalar kind := by
  cases kind with
  | bool => exact .bool false
  | integer own => exact .integer own 0
  | f32 => exact .f32 ⟨0⟩
  | f64 => exact .f64 ⟨0⟩
  | decimal => exact .decimal ⟨0⟩
  | char => exact .char (by decide)

/-- An integer can be written as one of a kind exactly if the kind represents it. -/
theorem exists_integerToRaw_iff :
    (∃ raw, integerToRaw (.integer own) number = .ok raw) ↔ own.Fits number := by
  simp [integerToRaw_eq_ok_iff]

end Value

namespace Flavor

variable {flavor : Flavor}

theorem exists_encode_boolean_iff :
    (∃ raw, boolean.encode (.integer own) value = .ok raw) ↔ ∃ truth, value = .bool truth := by
  constructor
  · rintro ⟨raw, h⟩
    obtain ⟨truth, htruth, -⟩ := bind_eq_ok_iff.1 h
    exact ⟨truth, boolOf_eq_ok_iff.1 htruth⟩
  · rintro ⟨truth, rfl⟩
    refine Value.exists_integerToRaw_iff.2 ?_
    cases own <;> cases truth <;> decide

theorem exists_encode_enum_iff : (∃ raw, enum.encode (.integer own) value = .ok raw) ↔
    ∃ number, value = .enum number ∧ own.Fits number := by
  constructor
  · rintro ⟨raw, h⟩
    obtain ⟨number, hnumber, hraw⟩ := bind_eq_ok_iff.1 h
    exact ⟨number, enumOf_eq_ok_iff.1 hnumber, Value.exists_integerToRaw_iff.1 ⟨raw, hraw⟩⟩
  · rintro ⟨number, rfl, hfits⟩
    exact Value.exists_integerToRaw_iff.2 hfits

/-! ## Bit fields -/

theorem numberOf_eq_ok_iff :
    flavor.numberOf (.integer own) value = .ok number ↔ flavor.Stands own value number := by
  cases flavor with
  | native =>
    rw [numberOf, bind_eq_ok_iff]
    constructor
    · rintro ⟨raw, hraw, hnumber⟩
      cases Value.exists_toRaw_iff.1 ⟨raw, hraw⟩ with
      | integer own pattern =>
        rw [Value.toRaw_integer] at hraw
        cases hraw
        rw [pure_eq_ok_iff, Value.integerOfRaw_toNat] at hnumber
        subst hnumber
        exact .native pattern
    · rintro ⟨pattern⟩
      exact ⟨_, Value.toRaw_integer own pattern,
        congrArg Except.ok (Value.integerOfRaw_toNat own pattern)⟩
  | boolean =>
    rw [numberOf, bind_eq_ok_iff]
    constructor
    · rintro ⟨truth, htruth, hnumber⟩
      obtain rfl := boolOf_eq_ok_iff.1 htruth
      cases hnumber
      exact .boolean truth
    · rintro (_ | truth)
      exact ⟨truth, rfl, rfl⟩
  | enum =>
    rw [numberOf, enumOf_eq_ok_iff]
    constructor
    · rintro rfl
      exact .enum number
    · rintro ⟨_⟩
      rfl

/-- The values that can be written into some bits are those that stand for a number that the bits
represent. -/
theorem exists_encodeBits_iff :
    (∃ bits, flavor.encodeBits (.integer own) width value = .ok bits) ↔
      width ≠ 0 ∧ ∃ number, flavor.Stands own value number ∧
        Represents (flavor.isSigned (.integer own)) width number := by
  have hbits : (∃ bits, flavor.encodeBits (.integer own) width value = .ok bits) ↔
      ∃ number, flavor.Stands own value number ∧
        ∃ bits, bitsOf number (flavor.isSigned (.integer own)) width = .ok bits := by
    simp only [encodeBits, bind_eq_ok_iff, numberOf_eq_ok_iff]
    rw [exists_comm]
    simp only [exists_and_left]
  simp only [hbits, exists_bitsOf_iff]
  constructor
  · rintro ⟨number, hstands, hwidth, hrange⟩
    exact ⟨hwidth, number, hstands, hrange⟩
  · rintro ⟨hwidth, number, hstands, hrange⟩
    exact ⟨number, hstands, hwidth, hrange⟩

end Flavor

end WireFormat
