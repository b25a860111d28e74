import WireFormat.Word

/-!
# Numbers kept as bit patterns

Floats travel as their IEEE 754 bit patterns, so that every NaN survives.  A decimal is a pattern of
128 bits:

| bits | content |
|---|---|
| 0 .. 95 | magnitude of the mantissa |
| 96 .. 111 | unused |
| 112 .. 119 | scale, the power of ten to divide by |
| 120 .. 126 | unused |
| 127 | sign |
-/

namespace WireFormat

/-- A binary floating-point number of 32 bits, by its bit pattern. -/
structure Binary32 where
  /-- The IEEE 754 bit pattern. -/
  pattern : BitVec 32
deriving DecidableEq, Repr, Inhabited

/-- A binary floating-point number of 64 bits, by its bit pattern. -/
structure Binary64 where
  /-- The IEEE 754 bit pattern. -/
  pattern : BitVec 64
deriving DecidableEq, Repr, Inhabited

/-- A decimal number of 128 bits, by its bit pattern. -/
structure Decimal where
  /-- Sign, scale and magnitude, in the bits that the table above says. -/
  pattern : BitVec 128
deriving DecidableEq, Repr, Inhabited

namespace Decimal

/-- The greatest scale of a decimal that is put together from its parts. -/
def maxScale : Nat := 28

/-- The decimal `mantissa * 10 ^ (-scale)`, if the magnitude of the mantissa has at most 96 bits and
the scale is at most `maxScale`. -/
def ofParts? (mantissa : Int) (scale : Nat) : Option Decimal :=
  if mantissa.natAbs < 2 ^ (96 : Nat) ∧ scale ≤ maxScale then
    some ⟨BitVec.ofBool (decide (mantissa < 0)) ++ 0#7 ++ BitVec.ofNat 8 scale ++ 0#16 ++
      BitVec.ofNat 96 mantissa.natAbs⟩
  else
    none

/-- The mantissa, with the sign of the decimal. -/
def mantissa (decimal : Decimal) : Int :=
  let magnitude : Int := (decimal.pattern.extractLsb' 0 96).toNat
  if decimal.pattern.msb then -magnitude else magnitude

/-- The power of ten that the mantissa is divided by. -/
def scale (decimal : Decimal) : Nat := (decimal.pattern.extractLsb' 112 8).toNat

end Decimal

end WireFormat
