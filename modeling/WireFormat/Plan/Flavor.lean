import WireFormat.Value

/-!
# Flavours of integers

An integer on the wire may stand for itself, for a boolean or for a member of an enum.  A `Flavor`
says which; it turns a value into the raw bits of a whole scalar or of a bit field, and back.
-/

namespace WireFormat

/-- What a scalar on the wire stands for. -/
inductive Flavor where
  /-- A value of the scalar's own kind. -/
  | native
  /-- A boolean, as one or zero. -/
  | boolean
  /-- A member of an enum, by its number. -/
  | enum
deriving DecidableEq, Repr

/-- The low `width` bits of a number, if it is in the range that they represent.  No bits represent
nothing. -/
def bitsOf (number : Int) (signed : Bool) (width : Nat) : Except DataError Nat :=
  let least : Int := if signed then -(2 ^ (width - 1)) else 0
  let bound : Int := if signed then 2 ^ (width - 1) else 2 ^ width
  if width = 0 ∨ number < least ∨ bound ≤ number then
    .error (.bitOverflow (number % 2 ^ (64 : Nat)).toNat width)
  else
    .ok (number % 2 ^ min width 64).toNat

namespace Flavor

/-- The truth value that a boolean field holds. -/
def boolOf (value : Value) : Except DataError Bool :=
  match value with
  | .bool value => .ok value
  | other => .error (other.mismatch "bool")

/-- The number of the member that an enum field holds. -/
def enumOf (value : Value) : Except DataError Int :=
  match value with
  | .enum number => .ok number
  | other => .error (other.mismatch "enum")

/-- Whether the bits of a scalar are read as two's complement.  Those of a boolean are not. -/
def isSigned (flavor : Flavor) (repr : ScalarKind) : Bool := flavor != boolean && repr.isSigned

/-- The raw bits of a value as a scalar of a kind. -/
def encode (flavor : Flavor) (repr : ScalarKind) (value : Value) : Except DataError Nat :=
  match flavor with
  | native => value.toRaw repr
  | boolean => do Value.integerToRaw repr (← boolOf value).toInt
  | enum => do Value.integerToRaw repr (← enumOf value)

/-- The value that the raw bits of a scalar stand for. -/
def decode (flavor : Flavor) (repr : ScalarKind) (raw : Nat) : Except DataError Value :=
  match flavor with
  | native => Value.ofRaw repr raw
  | boolean => .ok (.bool (raw != 0))
  | enum => .ok (.enum (Value.integerOfRaw repr raw))

/-- The number that a value is packed as. -/
def numberOf (flavor : Flavor) (repr : ScalarKind) (value : Value) : Except DataError Int :=
  match flavor with
  | native => return Value.integerOfRaw repr (← value.toRaw repr)
  | boolean => return (← boolOf value).toInt
  | enum => enumOf value

/-- The low `width` bits of a value, which have to represent it. -/
def encodeBits (flavor : Flavor) (repr : ScalarKind) (width : Nat) (value : Value) :
    Except DataError Nat := do
  bitsOf (← flavor.numberOf repr value) (flavor.isSigned repr) width

/-- The value that the bits of a field stand for. -/
def decodeBits (flavor : Flavor) (repr : ScalarKind) (width bits : Nat) : Except DataError Value :=
  let number : Int := if flavor.isSigned repr then signExtend bits width else bits
  match flavor with
  | native =>
    match Value.ofInteger? repr number with
    | some value => .ok value
    | none => .error (.outOfRange number repr)
  | boolean => .ok (.bool (number != 0))
  | enum => .ok (.enum number)

/-- The value of a field without bits. -/
def zero (flavor : Flavor) (repr : ScalarKind) : Value :=
  match flavor with
  | native => .zero repr
  | boolean => .bool false
  | enum => .enum 0

end Flavor

end WireFormat
