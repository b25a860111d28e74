import WireFormat.Plan.Flavor
import WireFormat.Proofs.Value.Word

/-!
# Scalars and bit fields are read back

* `Flavor.decode_encode` — a value is read back from the raw scalar that it is written as;
* `Flavor.decodeBits_encodeBits` — and from the bits of a bit field;
* `Value.ofRaw_integerToRaw`, `Flavor.decodeBits_bitsOf` — so is a number that is written into an
  integer field in place of the value of the field.
-/

namespace WireFormat

/-! ## Ranges -/

namespace IntegerKind

variable {kind : IntegerKind} {number : Int}

theorem bits_pos (kind : IntegerKind) : 0 < kind.bits := by cases kind <;> decide

theorem bits_le (kind : IntegerKind) : kind.bits ≤ 64 := by cases kind <;> decide

theorem fits_of_signed (h : kind.isSigned = true) :
    kind.Fits number ↔ -(2 ^ (kind.bits - 1)) ≤ number ∧ number < 2 ^ (kind.bits - 1) := by
  rw [Fits, least, greatest, if_pos h, if_pos h, Int.le_sub_one_iff]

theorem fits_of_unsigned (h : kind.isSigned = false) :
    kind.Fits number ↔ 0 ≤ number ∧ number < 2 ^ kind.bits := by
  rw [Fits, least, greatest, if_neg (by simp [h]), if_neg (by simp [h]), Int.le_sub_one_iff]

theorem fits_read (pattern : BitVec kind.bits) : kind.Fits (kind.read pattern) := by
  cases h : kind.isSigned with
  | true =>
    rw [fits_of_signed h, read, if_pos h]
    exact ⟨BitVec.le_toInt pattern, BitVec.toInt_lt⟩
  | false =>
    rw [fits_of_unsigned h, read, if_neg (by simp [h])]
    exact ⟨Int.natCast_nonneg _, by exact_mod_cast pattern.isLt⟩

theorem ofInt_read (pattern : BitVec kind.bits) :
    BitVec.ofInt kind.bits (kind.read pattern) = pattern := by
  rw [read]
  split
  · exact BitVec.ofInt_toInt
  · rw [BitVec.ofInt_natCast, BitVec.ofNat_toNat, BitVec.setWidth_eq]

theorem read_ofInt (h : kind.Fits number) : kind.read (BitVec.ofInt kind.bits number) = number := by
  cases hsigned : kind.isSigned with
  | true =>
    obtain ⟨hleast, hgreatest⟩ := (fits_of_signed hsigned).1 h
    rw [read, if_pos hsigned]
    exact BitVec.toInt_ofInt_eq_self kind.bits_pos hleast hgreatest
  | false =>
    obtain ⟨hleast, hgreatest⟩ := (fits_of_unsigned hsigned).1 h
    rw [read, if_neg (by simp [hsigned]), BitVec.toNat_ofInt]
    have hcast : ((2 ^ kind.bits : Nat) : Int) = 2 ^ kind.bits := by simp
    rw [hcast, Int.emod_eq_of_lt hleast hgreatest, Int.toNat_of_nonneg hleast]

end IntegerKind

/-! ## Numbers in whole scalars -/

namespace Value

variable {kind : ScalarKind} {number : Int} {raw : Nat} {value : Value}

theorem integerToRaw_eq_ok_iff : integerToRaw kind number = .ok raw ↔
    ∃ own, kind = .integer own ∧ own.Fits number ∧ raw = (number % 2 ^ own.bits).toNat := by
  rw [integerToRaw]
  cases kind with
  | integer own =>
    by_cases hfits : (ScalarKind.integer own).Fits number
    · rw [if_pos hfits, Except.ok.injEq]
      constructor
      · rintro rfl
        exact ⟨own, rfl, hfits, rfl⟩
      · rintro ⟨_, ⟨⟩, -, rfl⟩
        rfl
    · rw [if_neg hfits]
      constructor
      · nofun
      · rintro ⟨_, ⟨⟩, hother, -⟩
        exact (hfits hother).elim
  | _ => simp [ScalarKind.Fits]

theorem emod_toNat_lt (own : IntegerKind) (number : Int) :
    (number % 2 ^ own.bits).toNat < 256 ^ own.width := by
  have hpos : (0 : Int) < 2 ^ own.bits := Int.pow_pos (by decide)
  have hlt := Int.emod_lt_of_pos number hpos
  have hcast : ((256 ^ own.width : Nat) : Int) = 2 ^ own.bits := by
    rw [IntegerKind.bits, show (256 : Nat) = 2 ^ 8 from rfl, ← Nat.pow_mul]
    simp
  rw [← hcast] at hlt
  omega

/-- The integer that some bits stand for is that of their pattern. -/
theorem integerOfRaw_eq_read (own : IntegerKind) (raw : Nat) :
    integerOfRaw (.integer own) raw = own.read (BitVec.ofNat own.bits raw) := by
  have hmod : ((raw % 2 ^ own.bits : Nat) : Int).bmod (2 ^ own.bits) =
      (raw : Int).bmod (2 ^ own.bits) := by
    rw [Int.natCast_emod, Int.emod_bmod]
  rw [integerOfRaw, IntegerKind.read, ScalarKind.isSigned, BitVec.toInt_eq_toNat_bmod,
    BitVec.toNat_ofNat, hmod]
  rfl

theorem integerOfRaw_toNat (own : IntegerKind) (pattern : BitVec own.bits) :
    integerOfRaw (.integer own) pattern.toNat = own.read pattern := by
  rw [integerOfRaw_eq_read, BitVec.ofNat_toNat, BitVec.setWidth_eq]

/-- The integer that some bits stand for is one of its kind. -/
theorem fits_integerOfRaw (own : IntegerKind) (raw : Nat) :
    own.Fits (integerOfRaw (.integer own) raw) := by
  rw [integerOfRaw_eq_read]
  exact IntegerKind.fits_read _

/-- Bits always stand for an integer: the number is never out of the range of the kind. -/
theorem ofRaw_integer (own : IntegerKind) (raw : Nat) :
    ofRaw (.integer own) raw = .ok (integer own (BitVec.ofNat own.bits raw)) := by
  rw [ofRaw, ofInteger?, if_pos (fits_integerOfRaw own raw), integerOfRaw_eq_read,
    IntegerKind.ofInt_read]

theorem integerOfRaw_emod_toNat {own : IntegerKind} (h : own.Fits number) :
    integerOfRaw (.integer own) (number % 2 ^ own.bits).toNat = number := by
  cases hsigned : own.isSigned with
  | true =>
    obtain ⟨hleast, hgreatest⟩ := (IntegerKind.fits_of_signed hsigned).1 h
    rw [integerOfRaw, ScalarKind.isSigned, if_pos hsigned]
    exact bmod_toNat_emod own.bits_pos hleast hgreatest
  | false =>
    obtain ⟨hleast, hgreatest⟩ := (IntegerKind.fits_of_unsigned hsigned).1 h
    rw [integerOfRaw, ScalarKind.isSigned, if_neg (by simp [hsigned]),
      Int.emod_eq_of_lt hleast hgreatest]
    change ((number.toNat % 2 ^ own.bits : Nat) : Int) = number
    have hlt : number.toNat < 2 ^ own.bits := by
      have hcast : ((2 ^ own.bits : Nat) : Int) = 2 ^ own.bits := by simp
      omega
    rw [Nat.mod_eq_of_lt hlt, Int.toNat_of_nonneg hleast]

/-- The raw integer is the pattern of its kind. -/
theorem ofRaw_emod_toNat (own : IntegerKind) (number : Int) :
    ofRaw (.integer own) (number % 2 ^ own.bits).toNat =
      .ok (integer own (BitVec.ofInt own.bits number)) := by
  have hpattern : BitVec.ofNat own.bits (number % 2 ^ own.bits).toNat =
      BitVec.ofInt own.bits number := by
    refine BitVec.eq_of_toNat_eq ?_
    have hcast : ((2 ^ own.bits : Nat) : Int) = 2 ^ own.bits := by simp
    rw [BitVec.toNat_ofNat, BitVec.toNat_ofInt, hcast]
    refine Nat.mod_eq_of_lt ?_
    have hpos : (0 : Int) < 2 ^ own.bits := Int.pow_pos (by decide)
    have hlt := Int.emod_lt_of_pos number hpos
    omega
  rw [ofRaw_integer, hpattern]

/-- A number that is written into an integer field is read back as a value of its kind. -/
theorem ofRaw_integerToRaw (h : integerToRaw kind number = .ok raw) :
    raw < 256 ^ kind.width ∧ ∃ own, kind = .integer own ∧ own.Fits number ∧
      ofRaw kind raw = .ok (integer own (BitVec.ofInt own.bits number)) := by
  obtain ⟨own, rfl, hfits, rfl⟩ := integerToRaw_eq_ok_iff.1 h
  exact ⟨emod_toNat_lt own number, own, rfl, hfits, ofRaw_emod_toNat own number⟩

/-- A scalar is read back from the number that its bytes stand for. -/
theorem ofRaw_toRaw (h : value.toRaw kind = .ok raw) :
    raw < 256 ^ kind.width ∧ ofRaw kind raw = .ok value := by
  cases kind with
  | bool =>
    cases value with
    | bool value =>
      cases h
      cases value <;> exact ⟨by decide, rfl⟩
    | _ => cases h
  | integer own =>
    cases value with
    | integer found pattern =>
      rw [toRaw] at h
      split at h
      · next hfound =>
        subst hfound
        cases h
        refine ⟨?_, ?_⟩
        · have hlt : pattern.toNat < 2 ^ (8 * found.width) := pattern.isLt
          rwa [Nat.pow_mul] at hlt
        · rw [ofRaw_integer, BitVec.ofNat_toNat, BitVec.setWidth_eq]
      · cases h
    | _ => cases h
  | f32 =>
    cases value with
    | f32 number =>
      cases h
      exact ⟨number.pattern.isLt, by simp [ofRaw]⟩
    | _ => cases h
  | f64 =>
    cases value with
    | f64 number =>
      cases h
      exact ⟨number.pattern.isLt, by simp [ofRaw]⟩
    | _ => cases h
  | decimal =>
    cases value with
    | decimal number =>
      cases h
      exact ⟨number.pattern.isLt, by simp [ofRaw]⟩
    | _ => cases h
  | char =>
    cases value with
    | char value =>
      rw [toRaw] at h
      split at h
      · next hlt =>
        cases h
        refine ⟨hlt, ?_⟩
        have hvalid : value.toNat.isValidChar := value.valid
        simp [ofRaw, Nat.mod_eq_of_lt hlt, hvalid, Char.ofNat_toNat]
      · cases h
    | _ => cases h

end Value

namespace Flavor

variable {flavor : Flavor} {repr : ScalarKind} {value : Value} {raw : Nat}

theorem boolOf_eq_ok_iff {truth : Bool} : boolOf value = .ok truth ↔ value = .bool truth := by
  cases value <;> simp [boolOf]

theorem enumOf_eq_ok_iff {number : Int} : enumOf value = .ok number ↔ value = .enum number := by
  cases value <;> simp [enumOf]

/-! ## Numbers in bit fields -/

/-- The numbers that some bits represent: two's complement if they are signed. -/
def Represents (signed : Bool) (width : Nat) (number : Int) : Prop :=
  if signed then -(2 ^ (width - 1)) ≤ number ∧ number < 2 ^ (width - 1)
  else 0 ≤ number ∧ number < 2 ^ width

theorem bitsOf_eq_ok_iff {number : Int} {signed : Bool} {width bits : Nat} :
    bitsOf number signed width = .ok bits ↔ width ≠ 0 ∧ Represents signed width number ∧
      bits = (number % 2 ^ min width 64).toNat := by
  have hrange : ¬ (width = 0 ∨ number < (if signed then -(2 ^ (width - 1)) else 0) ∨
      (if signed then 2 ^ (width - 1) else 2 ^ width) ≤ number) ↔
        width ≠ 0 ∧ Represents signed width number := by
    rw [not_or, not_or, Int.not_lt, Int.not_le]
    cases signed <;> rfl
  rw [bitsOf, ← and_assoc]
  by_cases hin : width ≠ 0 ∧ Represents signed width number
  · rw [if_neg (hrange.2 hin), and_iff_right hin, Except.ok.injEq, eq_comm]
  · rw [if_pos (Decidable.not_not.1 (mt hrange.1 hin))]
    exact ⟨nofun, fun h ↦ (hin h.1).elim⟩

theorem bitsOf_eq_ok {number : Int} {signed : Bool} {width bits : Nat} (hwidth : width ≤ 64)
    (h : bitsOf number signed width = .ok bits) :
    width ≠ 0 ∧ bits < 2 ^ width ∧
      (if signed then signExtend bits width else (bits : Int)) = number := by
  obtain ⟨hzero, hrange, rfl⟩ := bitsOf_eq_ok_iff.1 h
  rw [Nat.min_eq_left hwidth]
  have hpos : (0 : Int) < 2 ^ width := Int.pow_pos (by decide)
  have hlt := Int.emod_lt_of_pos number hpos
  have hcast : ((2 ^ width : Nat) : Int) = 2 ^ width := by simp
  refine ⟨hzero, by omega, ?_⟩
  cases signed with
  | true =>
    rw [if_pos rfl, signExtend, if_neg hzero, Nat.min_eq_left hwidth]
    exact bmod_toNat_emod (Nat.pos_of_ne_zero hzero) hrange.1 hrange.2
  | false =>
    rw [if_neg (by simp), Int.toNat_of_nonneg (Int.emod_nonneg _ (Int.ne_of_gt hpos))]
    exact Int.emod_eq_of_lt hrange.1 hrange.2

/-- Fewer bits hold no more than all bits of a kind. -/
theorem fits_of_bitsOf {own : IntegerKind} {number : Int} {width bits : Nat}
    (hwidth : width ≤ own.bits) (h : bitsOf number own.isSigned width = .ok bits) :
    own.Fits number := by
  obtain ⟨-, hrange, -⟩ := bitsOf_eq_ok_iff.1 h
  cases hsigned : own.isSigned with
  | true =>
    rw [hsigned] at hrange
    obtain ⟨hleast, hbound⟩ := hrange
    have hpow : (2 : Int) ^ (width - 1) ≤ 2 ^ (own.bits - 1) := by
      exact_mod_cast Nat.pow_le_pow_right (by decide) (Nat.sub_le_sub_right hwidth 1)
    rw [IntegerKind.fits_of_signed hsigned]
    omega
  | false =>
    rw [hsigned] at hrange
    obtain ⟨hleast, hbound⟩ := hrange
    have hpow : (2 : Int) ^ width ≤ 2 ^ own.bits := by
      exact_mod_cast Nat.pow_le_pow_right (by decide) hwidth
    rw [IntegerKind.fits_of_unsigned hsigned]
    omega

/-- A number that is packed into the bits of an integer field is read back as a value of its
kind. -/
theorem decodeBits_bitsOf {own : IntegerKind} {number : Int} {width bits : Nat}
    (hwidth : width ≤ own.bits) (hfits : own.Fits number)
    (h : bitsOf number own.isSigned width = .ok bits) :
    native.decodeBits (.integer own) width bits =
      .ok (.integer own (BitVec.ofInt own.bits number)) := by
  obtain ⟨-, -, hnumber⟩ := bitsOf_eq_ok (Nat.le_trans hwidth own.bits_le) h
  have hsigned : isSigned native (.integer own) = own.isSigned := rfl
  rw [decodeBits, hsigned, hnumber]
  simp [Value.ofInteger?, hfits]

/-- A value is read back from the bits that it is packed as. -/
theorem decodeBits_encodeBits {own : IntegerKind} {width bits : Nat} (hwidth : width ≤ own.bits)
    (h : flavor.encodeBits (.integer own) width value = .ok bits) :
    width ≠ 0 ∧ bits < 2 ^ width ∧ flavor.decodeBits (.integer own) width bits = .ok value := by
  rw [encodeBits, bind_eq_ok_iff] at h
  obtain ⟨number, hnumber, hbits⟩ := h
  obtain ⟨hzero, hlt, hread⟩ := bitsOf_eq_ok (Nat.le_trans hwidth own.bits_le) hbits
  refine ⟨hzero, hlt, ?_⟩
  cases flavor with
  | native =>
    rw [numberOf, bind_eq_ok_iff] at hnumber
    obtain ⟨raw, hraw, hnumber⟩ := hnumber
    cases value with
    | integer found pattern =>
      rw [Value.toRaw] at hraw
      split at hraw
      · next hfound =>
        subst hfound
        cases hraw
        rw [pure_eq_ok_iff, Value.integerOfRaw_toNat] at hnumber
        subst hnumber
        rw [decodeBits_bitsOf hwidth (IntegerKind.fits_read pattern) hbits,
          IntegerKind.ofInt_read]
      · cases hraw
    | _ => cases hraw
  | boolean =>
    rw [numberOf, bind_eq_ok_iff] at hnumber
    obtain ⟨truth, htruth, hnumber⟩ := hnumber
    obtain rfl := boolOf_eq_ok_iff.1 htruth
    cases hnumber
    rw [decodeBits, hread]
    cases truth <;> rfl
  | enum =>
    obtain rfl := enumOf_eq_ok_iff.1 hnumber
    rw [decodeBits, hread]

/-- A value is read back from the raw scalar that it is written as. -/
theorem decode_encode (h : flavor.encode repr value = .ok raw) :
    raw < 256 ^ repr.width ∧ flavor.decode repr raw = .ok value := by
  cases flavor with
  | native => exact Value.ofRaw_toRaw h
  | boolean =>
    rw [encode, bind_eq_ok_iff] at h
    obtain ⟨truth, htruth, hraw⟩ := h
    obtain rfl := boolOf_eq_ok_iff.1 htruth
    refine ⟨(Value.ofRaw_integerToRaw hraw).1, ?_⟩
    obtain ⟨own, rfl, -, rfl⟩ := Value.integerToRaw_eq_ok_iff.1 hraw
    cases truth with
    | false => simp [decode]
    | true => cases own <;> rfl
  | enum =>
    rw [encode, bind_eq_ok_iff] at h
    obtain ⟨number, hnumber, hraw⟩ := h
    obtain rfl := enumOf_eq_ok_iff.1 hnumber
    refine ⟨(Value.ofRaw_integerToRaw hraw).1, ?_⟩
    obtain ⟨own, rfl, hfits, rfl⟩ := Value.integerToRaw_eq_ok_iff.1 hraw
    rw [decode, Value.integerOfRaw_emod_toNat hfits]

end Flavor

end WireFormat
