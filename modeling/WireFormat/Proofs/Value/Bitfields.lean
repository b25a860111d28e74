import WireFormat.Proofs.Value.Ranges

/-!
# Bit fields and their numbers

A bit field holds the numbers that its bits represent, and no others.  Every pattern of its bits
stands for one of them, and integers and enums are written as the pattern that they were read from.
A boolean is read from any pattern, but written as one or zero.

* `Flavor.numberOfBits` — the number that a pattern stands for;
* `Flavor.bitsOf_numberOfBits` — it has the pattern as its low bits;
* `Flavor.encodeBits_exact` — the numbers that can be written, and what is read back.
-/

namespace WireFormat

namespace Flavor

variable {flavor : Flavor} {own : IntegerKind} {value : Value} {number : Int} {width bits : Nat}
  {signed : Bool}

/-- The number that some bits stand for: two's complement if they are signed. -/
def numberOfBits (signed : Bool) (width bits : Nat) : Int :=
  if signed then signExtend bits width else bits

/-- A pattern is made up of the low bits of its number. -/
theorem emod_numberOfBits (hwidth : width ≠ 0) (hle : width ≤ 64) (hbits : bits < 2 ^ width) :
    (numberOfBits signed width bits % 2 ^ width).toNat = bits := by
  have hcast : ((2 ^ width : Nat) : Int) = 2 ^ width := by simp
  have hlow : (bits : Int) % 2 ^ width = bits := by
    rw [← hcast, ← Int.natCast_emod, Nat.mod_eq_of_lt hbits]
  cases signed with
  | false =>
    change ((bits : Int) % 2 ^ width).toNat = bits
    rw [hlow, Int.toNat_natCast]
  | true =>
    change (signExtend bits width % 2 ^ width).toNat = bits
    rw [signExtend, if_neg hwidth, Nat.min_eq_left hle, ← hcast, Int.bmod_emod, hcast, hlow,
      Int.toNat_natCast]

/-- The number of a pattern has the pattern as its low bits, and is in their range. -/
theorem bitsOf_numberOfBits (hwidth : width ≠ 0) (hle : width ≤ 64) (hbits : bits < 2 ^ width) :
    bitsOf (numberOfBits signed width bits) signed width = .ok bits := by
  obtain ⟨hzero, hrange⟩ :=
    exists_bitsOf_iff.1 (exists_bitsOf_signExtend signed hwidth hle hbits)
  refine bitsOf_eq_ok_iff.2 ⟨hzero, hrange, ?_⟩
  rw [Nat.min_eq_left hle, emod_numberOfBits hwidth hle hbits]

/-- Every pattern stands for a value, which is written as the pattern again unless it is a
boolean. -/
theorem exists_decodeBits (hwidth : width ≠ 0) (hle : width ≤ own.bits) (hbits : bits < 2 ^ width) :
    ∃ value, flavor.decodeBits (.integer own) width bits = .ok value ∧
      (flavor ≠ boolean → flavor.encodeBits (.integer own) width value = .ok bits) := by
  have hword : width ≤ 64 := Nat.le_trans hle own.bits_le
  cases flavor with
  | native =>
    have hpacked : bitsOf (numberOfBits own.isSigned width bits) own.isSigned width = .ok bits :=
      bitsOf_numberOfBits hwidth hword hbits
    have hfits := fits_of_bitsOf hle hpacked
    refine ⟨_, decodeBits_bitsOf hle hfits hpacked, fun _ ↦ ?_⟩
    rw [encodeBits_integer, IntegerKind.read_ofInt hfits, hpacked]
  | boolean => exact ⟨_, rfl, fun hother ↦ (hother rfl).elim⟩
  | enum => exact ⟨_, rfl, fun _ ↦ bitsOf_numberOfBits hwidth hword hbits⟩

/-- A value stands for one number only. -/
theorem Stands.eq {other : Int} (h : flavor.Stands own value number)
    (hother : flavor.Stands own value other) : other = number := by
  cases h <;> cases hother <;> rfl

/-- The range of a bit field, by its least and its greatest number. -/
theorem represents_iff : Represents signed width number ↔
    if signed then -(2 ^ (width - 1)) ≤ number ∧ number ≤ 2 ^ (width - 1) - 1
    else 0 ≤ number ∧ number ≤ 2 ^ width - 1 := by
  cases signed <;> simp only [Represents, Int.le_sub_one_iff]

/-- A bit field of a kind can be written with just the numbers in the range of its bits, is read
back as the value that was written, and any pattern of its bits stands for a value; that of an
integer or an enum is written as the pattern again. -/
theorem encodeBits_exact (flavor : Flavor) (own : IntegerKind) (hpos : 1 ≤ width)
    (hle : width ≤ own.bits) :
    (∀ value number, flavor.Stands own value number →
      ((∃ bits, flavor.encodeBits (.integer own) width value = .ok bits) ↔
        if own.isSigned ∧ flavor ≠ boolean then
          -(2 ^ (width - 1)) ≤ number ∧ number ≤ 2 ^ (width - 1) - 1
        else 0 ≤ number ∧ number ≤ 2 ^ width - 1)) ∧
    (∀ value bits, flavor.encodeBits (.integer own) width value = .ok bits →
      bits < 2 ^ width ∧ flavor.decodeBits (.integer own) width bits = .ok value) ∧
    ∀ bits < 2 ^ width, ∃ value, flavor.decodeBits (.integer own) width bits = .ok value ∧
      (flavor ≠ boolean → flavor.encodeBits (.integer own) width value = .ok bits) := by
  have hwidth : width ≠ 0 := Nat.ne_of_gt hpos
  refine ⟨fun value number hstands ↦ ?_, fun value bits h ↦ (decodeBits_encodeBits hle h).2,
    fun bits hbits ↦ exists_decodeBits hwidth hle hbits⟩
  have hsigned : flavor.isSigned (.integer own) ↔ own.isSigned ∧ flavor ≠ boolean := by
    rw [isSigned, Bool.and_eq_true, bne_iff_ne, and_comm]
    rfl
  have hrange : (∃ bits, flavor.encodeBits (.integer own) width value = .ok bits) ↔
      Represents (flavor.isSigned (.integer own)) width number := by
    rw [exists_encodeBits_iff, and_iff_right hwidth]
    constructor
    · rintro ⟨other, hother, hrange⟩
      rwa [hstands.eq hother] at hrange
    · exact fun hrange ↦ ⟨number, hstands, hrange⟩
  rw [hrange, represents_iff]
  simp only [hsigned]

/-- The least number of seven signed bits, and a pattern of them. -/
theorem encodeBits_exact_seven :
    (1 ≤ 7 ∧ 7 ≤ IntegerKind.i8.bits) ∧ enum.Stands .i8 (.enum (-64)) (-64) ∧
      (∃ bits, enum.encodeBits (.integer .i8) 7 (.enum (-64)) = .ok bits) ∧
      enum.encodeBits (.integer .i8) 7 (.enum (-64)) = .ok 64 ∧
      enum.decodeBits (.integer .i8) 7 64 = .ok (.enum (-64)) := by
  obtain ⟨hrange, hread, -⟩ := encodeBits_exact enum .i8 (show 1 ≤ 7 by decide) (by decide)
  have hencode : enum.encodeBits (.integer .i8) 7 (.enum (-64)) = .ok 64 := rfl
  exact ⟨⟨by decide, by decide⟩, .enum (-64), (hrange _ _ (.enum (-64))).2 (by decide), hencode,
    (hread _ _ hencode).2⟩

end Flavor
end WireFormat
