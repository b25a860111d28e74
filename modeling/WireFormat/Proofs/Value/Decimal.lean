import WireFormat.Number

/-!
# Decimals and their parts

A decimal is put together from a mantissa and a scale, and taken apart into them again.  Its pattern
has room for more than its parts: there are unused bits, the scale can be too great, and zero can
have a sign.  Where none of this is so, the parts are all that there is.

* `Decimal.compose`, `Decimal.getLsbD_compose` — the pattern of some parts, bit by bit;
* `Decimal.ofParts?_eq_some_iff` — which decimals are put together, and from which parts;
* `Decimal.ofParts?_exact` — the parts that are accepted are read back, and determine the pattern.
-/

namespace WireFormat

namespace Decimal

/-- The bits that no part is kept in are zero. -/
def IsPlain (decimal : Decimal) : Prop :=
  ∀ i, 96 ≤ i ∧ i ≤ 111 ∨ 120 ≤ i ∧ i ≤ 126 → decimal.pattern.getLsbD i = false

/-- The decimal with some sign, scale and magnitude, and zeros elsewhere. -/
def compose (negative : Bool) (scale : BitVec 8) (magnitude : BitVec 96) : Decimal :=
  ⟨BitVec.ofBool negative ++ 0#7 ++ scale ++ 0#16 ++ magnitude⟩

variable {decimal : Decimal} {negative : Bool} {power : BitVec 8} {magnitude : BitVec 96}
  {mantissa : Int} {scale : Nat}

/-! ## The bits of a decimal -/

theorem getLsbD_compose (i : Nat) : (compose negative power magnitude).pattern.getLsbD i =
    if i < 96 then magnitude.getLsbD i
    else if i < 112 then false
    else if i < 120 then power.getLsbD (i - 112)
    else if i < 127 then false
    else decide (i = 127) && negative := by
  have hpower : i - 96 - 16 = i - 112 := by omega
  have habove : i - 112 - 8 = i - 120 := by omega
  have hsign : i - 120 - 7 = i - 127 := by omega
  have hbelow : i - 96 < 16 ↔ i < 112 := by omega
  have hscale : i - 112 < 8 ↔ i < 120 := by omega
  have hunused : i - 120 < 7 ↔ i < 127 := by omega
  simp only [compose, BitVec.getLsbD_append, BitVec.getLsbD_zero, BitVec.getLsbD_ofBool, hpower,
    habove, hsign, hbelow, hscale, hunused]
  by_cases hlast : i < 127
  · simp only [if_pos hlast]
  · have hzero : i - 127 = 0 ↔ i = 127 := by omega
    simp only [hzero]

theorem msb_compose : (compose negative power magnitude).pattern.msb = negative := by
  rw [BitVec.msb_eq_getLsbD_last, getLsbD_compose]
  rfl

theorem scale_compose :
    (compose negative power magnitude).pattern.extractLsb' 112 8 = power := by
  refine BitVec.eq_of_getLsbD_eq fun i hi ↦ ?_
  rw [BitVec.getLsbD_extractLsb', getLsbD_compose, if_neg (by omega), if_neg (by omega),
    if_pos (by omega), Nat.add_sub_cancel_left, decide_eq_true hi, Bool.true_and]

theorem magnitude_compose :
    (compose negative power magnitude).pattern.extractLsb' 0 96 = magnitude := by
  refine BitVec.eq_of_getLsbD_eq fun i hi ↦ ?_
  rw [BitVec.getLsbD_extractLsb', Nat.zero_add, getLsbD_compose, if_pos hi, decide_eq_true hi,
    Bool.true_and]

theorem isPlain_compose : (compose negative power magnitude).IsPlain := by
  intro i hi
  rw [getLsbD_compose]
  rcases hi with ⟨hleast, hgreatest⟩ | ⟨hleast, hgreatest⟩
  · rw [if_neg (by omega), if_pos (by omega)]
  · rw [if_neg (by omega), if_neg (by omega), if_neg (by omega), if_pos (by omega)]

/-- A pattern without unused bits is made up of its parts. -/
theorem IsPlain.compose_eq (h : decimal.IsPlain) : compose decimal.pattern.msb
    (decimal.pattern.extractLsb' 112 8) (decimal.pattern.extractLsb' 0 96) = decimal := by
  obtain ⟨pattern⟩ := decimal
  refine congrArg Decimal.mk (BitVec.eq_of_getLsbD_eq fun i hi ↦ ?_)
  refine (getLsbD_compose i).trans ?_
  split
  · next hlt => simp [hlt]
  split
  · next hleast hlt => exact (h i (by omega)).symm
  split
  · next hleast hlt =>
    have hwithin : i - 112 < 8 := by omega
    have hplace : 112 + (i - 112) = i := by omega
    simp [hwithin, hplace]
  split
  · next hleast hlt => exact (h i (by omega)).symm
  · next hleast =>
    obtain rfl : i = 127 := by omega
    exact (BitVec.msb_eq_getLsbD_last pattern).symm

/-! ## Parts -/

theorem mantissa_compose : (compose negative power magnitude).mantissa =
    if negative then -(magnitude.toNat : Int) else magnitude.toNat := by
  rw [Decimal.mantissa, msb_compose, magnitude_compose]

/-- What is put together are the sign, the scale and the magnitude. -/
theorem ofParts?_eq_some_iff : ofParts? mantissa scale = some decimal ↔
    (mantissa.natAbs < 2 ^ (96 : Nat) ∧ scale ≤ maxScale) ∧
      compose (decide (mantissa < 0)) (BitVec.ofNat 8 scale) (BitVec.ofNat 96 mantissa.natAbs) =
        decimal := by
  rw [ofParts?]
  split
  · next h => rw [Option.some.injEq, and_iff_right h]; rfl
  · next h => simp [h]

/-- The parts that a decimal is put together from are read back. -/
theorem parts_of_ofParts? (h : ofParts? mantissa scale = some decimal) :
    decimal.mantissa = mantissa ∧ decimal.scale = scale := by
  obtain ⟨⟨hmantissa, hscale⟩, rfl⟩ := ofParts?_eq_some_iff.1 h
  constructor
  · rw [mantissa_compose, BitVec.toNat_ofNat, Nat.mod_eq_of_lt hmantissa]
    split
    · next hnegative =>
      have hlt := of_decide_eq_true hnegative
      omega
    · next hpositive =>
      have hle := of_decide_eq_false (Bool.eq_false_iff.2 hpositive)
      omega
  · rw [Decimal.scale, scale_compose, BitVec.toNat_ofNat]
    change scale ≤ 28 at hscale
    omega

/-- A decimal without unused bits, with a scale that is not too great and without a sign on zero, is
put together from its parts. -/
theorem ofParts?_parts (hplain : decimal.IsPlain) (hscale : decimal.scale ≤ maxScale)
    (hsign : decimal.mantissa ≠ 0 ∨ decimal.pattern.msb = false) :
    ofParts? decimal.mantissa decimal.scale = some decimal := by
  have hmagnitude : decimal.mantissa.natAbs = (decimal.pattern.extractLsb' 0 96).toNat := by
    rw [Decimal.mantissa]
    split
    · rw [Int.natAbs_neg, Int.natAbs_natCast]
    · rw [Int.natAbs_natCast]
  have hnegative : decide (decimal.mantissa < 0) = decimal.pattern.msb := by
    rw [Decimal.mantissa] at hsign ⊢
    generalize (decimal.pattern.extractLsb' 0 96).toNat = magnitude at hsign ⊢
    cases hmsb : decimal.pattern.msb with
    | false => exact decide_eq_false (Int.not_lt.2 (Int.natCast_nonneg magnitude))
    | true =>
      rw [hmsb] at hsign
      have hne := hsign.resolve_right nofun
      refine decide_eq_true ?_
      rw [if_pos rfl] at hne ⊢
      omega
  refine ofParts?_eq_some_iff.2 ⟨⟨?_, hscale⟩, ?_⟩
  · rw [hmagnitude]
    exact BitVec.isLt _
  · rw [hnegative, hmagnitude, Decimal.scale, BitVec.ofNat_toNat, BitVec.ofNat_toNat,
      BitVec.setWidth_eq, BitVec.setWidth_eq]
    exact hplain.compose_eq

/-- Just the mantissas of at most 96 bits and the scales up to 28 are accepted; they are read back
from the pattern, so that no two of them have one pattern; and a pattern is put together again from
its parts unless it has a sign on zero, a greater scale or unused bits. -/
theorem ofParts?_exact :
    (∀ mantissa scale, (∃ decimal, ofParts? mantissa scale = some decimal) ↔
      mantissa.natAbs < 2 ^ (96 : Nat) ∧ scale ≤ 28) ∧
    (∀ mantissa scale decimal, ofParts? mantissa scale = some decimal →
      decimal.mantissa = mantissa ∧ decimal.scale = scale ∧
        ∀ mantissa' scale', ofParts? mantissa' scale' = some decimal →
          mantissa' = mantissa ∧ scale' = scale) ∧
    ∀ decimal : Decimal, (decimal.mantissa ≠ 0 ∨ decimal.pattern.msb = false) →
      decimal.scale ≤ 28 →
      (∀ i, 96 ≤ i ∧ i ≤ 111 ∨ 120 ≤ i ∧ i ≤ 126 → decimal.pattern.getLsbD i = false) →
        ofParts? decimal.mantissa decimal.scale = some decimal := by
  refine ⟨fun mantissa scale ↦ ?_, fun mantissa scale decimal h ↦ ?_,
    fun decimal hsign hscale hplain ↦ ofParts?_parts hplain hscale hsign⟩
  · simp only [ofParts?_eq_some_iff, exists_and_left, exists_eq', and_true]
    rfl
  · obtain ⟨hmantissa, hscale⟩ := parts_of_ofParts? h
    refine ⟨hmantissa, hscale, fun mantissa' scale' h' ↦ ?_⟩
    obtain ⟨hmantissa', hscale'⟩ := parts_of_ofParts? h'
    exact ⟨hmantissa'.symm.trans hmantissa, hscale'.symm.trans hscale⟩

/-- The decimal -19.99. -/
def price : Decimal := compose true 2 1999

/-- A price has two places and a sign, and is put together from them. -/
theorem ofParts?_price : (price.mantissa ≠ 0 ∧ price.scale ≤ 28 ∧ price.IsPlain) ∧
    price.mantissa = -1999 ∧ price.scale = 2 ∧ ofParts? (-1999) 2 = some price := by
  have hmantissa : price.mantissa = -1999 := by decide
  have hscale : price.scale = 2 := by decide
  have hparts := ofParts?_exact.2.2 price (.inl (by decide)) (by decide) isPlain_compose
  rw [hmantissa, hscale] at hparts
  exact ⟨⟨by decide, by decide, isPlain_compose⟩, hmantissa, hscale, hparts⟩

end Decimal
end WireFormat
