import WireFormat.Proofs.Outcome
import WireFormat.Word

/-!
# Raw scalars and their bytes

* `ofWireBytes_wireBytes` — a raw scalar is read back from its bytes, in either order;
* `bmod_toNat_emod` — an integer is read back from its two's complement.
-/

namespace WireFormat

/-! ## Bytes -/

@[simp] theorem length_wireBytes (width raw : Nat) (swap : Bool) :
    (wireBytes width raw swap).length = width := length_littleEndian ..

theorem littleEndian_reverseBytes {width : Nat} (hwidth : 1 < width) (raw : Nat) :
    littleEndian width (reverseBytes width raw) = (littleEndian width raw).reverse := by
  rw [reverseBytes, if_neg (Nat.not_le.2 hwidth)]
  have h := littleEndian_ofLittleEndian (littleEndian width raw).reverse
  rwa [List.length_reverse, length_littleEndian] at h

theorem reverseBytes_reverseBytes {width raw : Nat} (h : raw < 256 ^ width) :
    reverseBytes width (reverseBytes width raw) = raw := by
  by_cases hwidth : 1 < width
  · rw [reverseBytes, if_neg (Nat.not_le.2 hwidth), littleEndian_reverseBytes hwidth,
      List.reverse_reverse, ofLittleEndian_littleEndian, Nat.mod_eq_of_lt h]
  · simp [reverseBytes, Nat.not_lt.1 hwidth]

theorem reverseBytes_lt {width raw : Nat} (h : raw < 256 ^ width) :
    reverseBytes width raw < 256 ^ width := by
  rw [reverseBytes]
  split
  · exact h
  · have hlt := ofLittleEndian_lt (littleEndian width raw).reverse
    rwa [List.length_reverse, length_littleEndian] at hlt

/-- A raw scalar is read back from its bytes. -/
theorem ofWireBytes_wireBytes {width raw : Nat} (h : raw < 256 ^ width) (swap : Bool) :
    ofWireBytes (wireBytes width raw swap) swap = raw := by
  cases swap with
  | false => simp [ofWireBytes, wireBytes, ofLittleEndian_littleEndian, Nat.mod_eq_of_lt h]
  | true =>
    simp only [ofWireBytes, wireBytes, if_true, length_littleEndian, ofLittleEndian_littleEndian,
      Nat.mod_eq_of_lt (reverseBytes_lt h)]
    exact reverseBytes_reverseBytes h

theorem littleEndian_reverse_of_le_one {width : Nat} (h : width ≤ 1) (raw : Nat) :
    (littleEndian width raw).reverse = littleEndian width raw := by
  obtain rfl | rfl : width = 0 ∨ width = 1 := by omega
  · rfl
  · rfl

/-- Swapped bytes come the other way round. -/
theorem wireBytes_true (width raw : Nat) :
    wireBytes width raw true = (littleEndian width raw).reverse := by
  by_cases hwidth : 1 < width
  · exact littleEndian_reverseBytes hwidth raw
  · rw [littleEndian_reverse_of_le_one (Nat.not_lt.1 hwidth), wireBytes, if_pos rfl, reverseBytes,
      if_pos (Nat.not_lt.1 hwidth)]

/-- The bytes of a raw scalar are its number when they are read from the lowest on. -/
theorem ofLittleEndian_wireBytes {width raw : Nat} (h : raw < 256 ^ width) (swap : Bool) :
    ofLittleEndian (if swap then (wireBytes width raw swap).reverse
      else wireBytes width raw swap) = raw := by
  have hraw := ofLittleEndian_littleEndian width raw
  rw [Nat.mod_eq_of_lt h] at hraw
  cases swap with
  | false => exact hraw
  | true =>
    rw [if_pos rfl, wireBytes_true, List.reverse_reverse]
    exact hraw

/-! ## Two's complement -/

/-- An integer that some bits represent is read back from its two's complement. -/
theorem bmod_toNat_emod {number : Int} {bits : Nat} (hbits : 0 < bits)
    (hleast : -(2 ^ (bits - 1)) ≤ number) (hgreatest : number < 2 ^ (bits - 1)) :
    ((number % 2 ^ bits).toNat : Int).bmod (2 ^ bits) = number := by
  have hpos : (0 : Int) < 2 ^ bits := Int.pow_pos (by decide)
  have htwo : (2 : Int) ^ bits = 2 * 2 ^ (bits - 1) := by
    rw [← Int.pow_succ', Nat.sub_add_cancel hbits]
  rw [Int.toNat_of_nonneg (Int.emod_nonneg _ (Int.ne_of_gt hpos))]
  have hcast : ((2 ^ bits : Nat) : Int) = 2 ^ bits := by simp
  rw [← hcast, Int.emod_bmod]
  refine Int.bmod_eq_of_le ?_ ?_
  · rw [hcast]
    omega
  · rw [hcast]
    omega

end WireFormat
