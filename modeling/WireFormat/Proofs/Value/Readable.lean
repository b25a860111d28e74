import WireFormat.Proofs.Value.Scalar

/-!
# What has been read can be written

Every value that some bits stand for is in the range that its bits represent, so it can be written
into them.  The bits need not be the same: any bits but zero are read as true.

* `Flavor.exists_encode_of_decode` — a value that was read from a scalar can be written as one;
* `Flavor.exists_encodeBits_of_decodeBits` — and a value of a bit field into its bits;
* `Value.integerToRaw_read`, `Flavor.encodeBits_integer` — an integer is written as its number.
-/

namespace WireFormat

namespace Value

/-- An integer is written as its pattern. -/
theorem integerToRaw_read (own : IntegerKind) (pattern : BitVec own.bits) :
    integerToRaw (.integer own) (own.read pattern) = .ok pattern.toNat := by
  refine integerToRaw_eq_ok_iff.2 ⟨own, rfl, IntegerKind.fits_read pattern, ?_⟩
  have hpattern := congrArg BitVec.toNat (IntegerKind.ofInt_read pattern)
  have hcast : ((2 ^ own.bits : Nat) : Int) = 2 ^ own.bits := by simp
  rw [BitVec.toNat_ofInt, hcast] at hpattern
  exact hpattern.symm

theorem toRaw_integer (own : IntegerKind) (pattern : BitVec own.bits) :
    (integer own pattern).toRaw (.integer own) = .ok pattern.toNat := by
  rw [toRaw, if_pos rfl]

theorem exists_toRaw_of_ofRaw {kind : ScalarKind} {raw : Nat} {value : Value}
    (h : ofRaw kind raw = .ok value) : ∃ raw', value.toRaw kind = .ok raw' := by
  cases kind with
  | integer own =>
    rw [ofRaw_integer] at h
    cases h
    exact ⟨_, toRaw_integer own _⟩
  | char =>
    rw [ofRaw] at h
    split at h
    · next hvalid =>
      cases h
      refine ⟨_, if_pos ?_⟩
      rw [Char.ofNat, dif_pos hvalid]
      exact Nat.mod_lt raw (by decide)
    · cases h
  | _ =>
    cases h
    exact ⟨_, rfl⟩

end Value

namespace Flavor

variable {flavor : Flavor} {own : IntegerKind} {value : Value} {width bits : Nat}

/-- A value that was read from a scalar can be written as one. -/
theorem exists_encode_of_decode {repr : ScalarKind} {raw : Nat}
    (hrepr : flavor = native ∨ ∃ own, repr = .integer own)
    (h : flavor.decode repr raw = .ok value) : ∃ raw', flavor.encode repr value = .ok raw' := by
  cases flavor with
  | native => exact Value.exists_toRaw_of_ofRaw h
  | boolean =>
    obtain ⟨own, rfl⟩ := hrepr.resolve_left nofun
    cases h
    have hfits : ∀ truth : Bool, own.Fits truth.toInt := by
      intro truth
      cases own <;> cases truth <;> decide
    exact ⟨_, Value.integerToRaw_eq_ok_iff.2 ⟨own, rfl, hfits _, rfl⟩⟩
  | enum =>
    obtain ⟨own, rfl⟩ := hrepr.resolve_left nofun
    cases h
    exact ⟨_, Value.integerToRaw_eq_ok_iff.2 ⟨own, rfl, Value.fits_integerOfRaw own raw, rfl⟩⟩

/-! ## Bit fields -/

/-- A number can be written into some bits exactly if they represent it. -/
theorem exists_bitsOf_iff {number : Int} {signed : Bool} :
    (∃ bits, bitsOf number signed width = .ok bits) ↔
      width ≠ 0 ∧ Represents signed width number := by
  simp only [bitsOf_eq_ok_iff, exists_and_left, exists_eq, and_true]

/-- What some bits stand for is in the range that they represent. -/
theorem exists_bitsOf_signExtend (signed : Bool) (hwidth : width ≠ 0) (hle : width ≤ 64)
    (hbits : bits < 2 ^ width) :
    ∃ bits', bitsOf (if signed then signExtend bits width else (bits : Int)) signed width =
      .ok bits' := by
  cases signed with
  | false =>
    refine exists_bitsOf_iff.2 ⟨hwidth, Int.natCast_nonneg bits, ?_⟩
    change (bits : Int) < 2 ^ width
    exact_mod_cast hbits
  | true =>
    have htwo : 2 ^ width = 2 * 2 ^ (width - 1) := by
      rw [← Nat.pow_succ']
      congr 1
      omega
    have hpos : 0 < 2 ^ width := Nat.two_pow_pos width
    have hcast : ((2 ^ (width - 1) : Nat) : Int) = 2 ^ (width - 1) := by simp
    have hleast := Int.le_bmod (x := (bits : Int)) hpos
    have hbound := Int.bmod_lt (x := (bits : Int)) hpos
    change ∃ bits', bitsOf (signExtend bits width) true width = _
    rw [signExtend, if_neg hwidth, Nat.min_eq_left hle]
    refine exists_bitsOf_iff.2 ⟨hwidth, ?_, ?_⟩
    · omega
    · omega

/-- An integer is packed as its number. -/
theorem encodeBits_integer (own : IntegerKind) (pattern : BitVec own.bits) (width : Nat) :
    native.encodeBits (.integer own) width (.integer own pattern) =
      bitsOf (own.read pattern) own.isSigned width := by
  rw [encodeBits, numberOf, Value.toRaw_integer]
  change bitsOf (Value.integerOfRaw (.integer own) pattern.toNat) _ _ = _
  rw [Value.integerOfRaw_toNat]
  rfl

/-- A value that was read from some bits can be written into as many. -/
theorem exists_encodeBits_of_decodeBits (hwidth : width ≠ 0) (hle : width ≤ own.bits)
    (hbits : bits < 2 ^ width) (h : flavor.decodeBits (.integer own) width bits = .ok value) :
    ∃ bits', flavor.encodeBits (.integer own) width value = .ok bits' := by
  have hnumber := exists_bitsOf_signExtend (flavor.isSigned (.integer own)) hwidth
    (Nat.le_trans hle own.bits_le) hbits
  cases flavor with
  | native =>
    rw [decodeBits] at h
    generalize (if isSigned native (.integer own) then signExtend bits width else (bits : Int)) =
      number at h hnumber
    by_cases hfits : own.Fits number
    · rw [Value.ofInteger?, if_pos hfits] at h
      cases h
      rw [encodeBits_integer, IntegerKind.read_ofInt hfits]
      exact hnumber
    · rw [Value.ofInteger?, if_neg hfits] at h
      cases h
  | boolean =>
    cases h
    have hpow : (1 : Int) < 2 ^ width := by exact_mod_cast Nat.one_lt_two_pow hwidth
    have htruth : ∀ truth : Bool, ∃ bits', bitsOf truth.toInt false width = .ok bits' := by
      intro truth
      refine exists_bitsOf_iff.2 ⟨hwidth, ?_, ?_⟩
      · cases truth <;> decide
      · refine Int.lt_of_le_of_lt ?_ hpow
        cases truth <;> decide
    exact htruth _
  | enum =>
    cases h
    exact hnumber

end Flavor

end WireFormat
