import WireFormat.Word

/-!
# Scalar kinds and byte orders

The scalars a layout can put on the wire.  Integer kinds have a type of their own, so that whatever
stands in for a boolean or an enum on the wire is an integer by construction.

* `IntegerKind` — the eight integer kinds, with `width` in bytes, `isSigned` and the range
  `least` .. `greatest`; `IntegerKind.Fits` is membership in that range.
* `ScalarKind` — every scalar kind; `ScalarKind.Fits` never holds of a kind that is no integer.
* `ByteOrder` — the order of the bytes of a scalar; `ByteOrder.reverses` says when the bytes of a
  scalar have to be reversed to leave the little-endian order that everything else here uses.
-/

namespace WireFormat

/-- A kind of integer: its size and whether it has a sign. -/
inductive IntegerKind where
  | i8
  | u8
  | i16
  | u16
  | i32
  | u32
  | i64
  | u64
deriving DecidableEq, Repr, Inhabited

namespace IntegerKind

/-- The number of bytes of an integer of this kind. -/
def width : IntegerKind → Nat
  | i8 | u8 => 1
  | i16 | u16 => 2
  | i32 | u32 => 4
  | i64 | u64 => 8

/-- The number of bits of an integer of this kind. -/
def bits (kind : IntegerKind) : Nat := 8 * kind.width

/-- Whether the kind holds negative integers. -/
def isSigned : IntegerKind → Bool
  | i8 | i16 | i32 | i64 => true
  | u8 | u16 | u32 | u64 => false

/-- The least integer of this kind. -/
def least (kind : IntegerKind) : Int :=
  if kind.isSigned then -(2 ^ (kind.bits - 1)) else 0

/-- The greatest integer of this kind. -/
def greatest (kind : IntegerKind) : Int :=
  if kind.isSigned then 2 ^ (kind.bits - 1) - 1 else 2 ^ kind.bits - 1

/-- The integers that this kind represents. -/
def Fits (kind : IntegerKind) (value : Int) : Prop := kind.least ≤ value ∧ value ≤ kind.greatest

instance (kind : IntegerKind) (value : Int) : Decidable (kind.Fits value) :=
  inferInstanceAs (Decidable (_ ∧ _))

/-- The integer that a bit pattern stands for: two's complement in a signed kind. -/
def read (kind : IntegerKind) (pattern : BitVec kind.bits) : Int :=
  if kind.isSigned then pattern.toInt else pattern.toNat

/-- The name of the kind in messages about layouts and ranges. -/
def name : IntegerKind → String
  | i8 => "I8"
  | u8 => "U8"
  | i16 => "I16"
  | u16 => "U16"
  | i32 => "I32"
  | u32 => "U32"
  | i64 => "I64"
  | u64 => "U64"

/-- The name of a value of the kind in messages about values. -/
def label : IntegerKind → String
  | i8 => "i8"
  | u8 => "u8"
  | i16 => "i16"
  | u16 => "u16"
  | i32 => "i32"
  | u32 => "u32"
  | i64 => "i64"
  | u64 => "u64"

end IntegerKind

/-- A kind of scalar. -/
inductive ScalarKind where
  | bool
  | integer (kind : IntegerKind)
  | f32
  | f64
  /-- A decimal number of 128 bits. -/
  | decimal
  /-- A character that is a single UTF-16 code unit. -/
  | char
deriving DecidableEq, Repr, Inhabited

namespace ScalarKind

/-- The number of bytes of a scalar of this kind. -/
def width : ScalarKind → Nat
  | bool => 1
  | integer kind => kind.width
  | f32 => 4
  | f64 => 8
  | decimal => 16
  | char => 2

/-- The number of bits of a scalar of this kind. -/
def bits (kind : ScalarKind) : Nat := 8 * kind.width

/-- Whether the kind has a sign; floats and decimals do. -/
def isSigned : ScalarKind → Bool
  | bool | char => false
  | integer kind => kind.isSigned
  | f32 | f64 | decimal => true

/-- The integer kind that a scalar kind is, if it is one. -/
def integer? : ScalarKind → Option IntegerKind
  | integer kind => some kind
  | _ => none

/-- Whether the kind is an integer kind. -/
def isIntegral (kind : ScalarKind) : Bool := kind.integer?.isSome

/-- The integers that a kind represents; none unless it is an integer kind. -/
def Fits : ScalarKind → Int → Prop
  | integer kind, value => kind.Fits value
  | _, _ => False

instance : (kind : ScalarKind) → (value : Int) → Decidable (kind.Fits value)
  | integer kind, value => inferInstanceAs (Decidable (kind.Fits value))
  | bool, _ | f32, _ | f64, _ | decimal, _ | char, _ => inferInstanceAs (Decidable False)

/-- The ends of the range of an integer kind. -/
def range? (kind : ScalarKind) : Option (Int × Int) :=
  kind.integer?.map fun kind ↦ (kind.least, kind.greatest)

/-- The name of the kind in messages about layouts and ranges. -/
def name : ScalarKind → String
  | bool => "Bool"
  | integer kind => kind.name
  | f32 => "F32"
  | f64 => "F64"
  | decimal => "Decimal"
  | char => "Char"

/-- The name of a value of the kind in messages about values. -/
def label : ScalarKind → String
  | bool => "bool"
  | integer kind => kind.label
  | f32 => "f32"
  | f64 => "f64"
  | decimal => "decimal"
  | char => "char"

/-- The scalar kinds, all of them. -/
def all : List ScalarKind :=
  [bool, integer .i8, integer .u8, integer .i16, integer .u16, integer .i32, integer .u32,
    integer .i64, integer .u64, f32, f64, decimal, char]

/-- The scalar kind with a name. -/
def ofName? (name : String) : Option ScalarKind := all.find? fun kind ↦ kind.name == name

end ScalarKind

/-- The order of the bytes of a scalar on the wire. -/
inductive ByteOrder where
  | little
  | big
deriving DecidableEq, Repr, Inhabited

namespace ByteOrder

/-- Whether a scalar of `width` bytes is written with its little-endian bytes reversed. -/
def reverses (order : ByteOrder) (width : Nat) : Bool := decide (1 < width) && order == big

/-- The name of a byte order. -/
def name : ByteOrder → String
  | little => "Little"
  | big => "Big"

/-- The byte order with a name. -/
def ofName? (name : String) : Option ByteOrder := [little, big].find? fun order ↦ order.name == name

end ByteOrder

end WireFormat
