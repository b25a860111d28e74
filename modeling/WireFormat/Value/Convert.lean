import WireFormat.Value

/-!
# Conversions between values and Lean types

`ToValue` shows a Lean value as a `Value`; `OfValue` reads one back and accepts one kind of value
only.  `Members.take` takes a member out of a record and converts it.
-/

namespace WireFormat

/-- The types whose elements can be shown as values. -/
class ToValue (α : Type) where
  toValue : α → Value

/-- The types whose elements can be read from values. -/
class OfValue (α : Type) where
  ofValue : Value → Except DataError α

export ToValue (toValue)
export OfValue (ofValue)

instance : ToValue Value := ⟨id⟩

instance : OfValue Value := ⟨.ok⟩

instance : ToValue Bool := ⟨.bool⟩

instance : OfValue Bool where
  ofValue
    | .bool value => .ok value
    | other => .error (other.mismatch "bool")

/-- Reads the bit pattern of an integer of one kind. -/
def IntegerKind.ofValue (kind : IntegerKind) (value : Value) :
    Except DataError (BitVec kind.bits) :=
  match value with
  | .integer found pattern =>
    if h : found = kind then .ok (h ▸ pattern) else .error (value.mismatch kind.label)
  | other => .error (other.mismatch kind.label)

instance : ToValue Int8 := ⟨fun number ↦ .integer .i8 number.toBitVec⟩

instance : OfValue Int8 := ⟨fun value ↦ (IntegerKind.i8.ofValue value).map Int8.ofBitVec⟩

instance : ToValue UInt8 := ⟨fun number ↦ .integer .u8 number.toBitVec⟩

instance : OfValue UInt8 := ⟨fun value ↦ (IntegerKind.u8.ofValue value).map UInt8.ofBitVec⟩

instance : ToValue Int16 := ⟨fun number ↦ .integer .i16 number.toBitVec⟩

instance : OfValue Int16 := ⟨fun value ↦ (IntegerKind.i16.ofValue value).map Int16.ofBitVec⟩

instance : ToValue UInt16 := ⟨fun number ↦ .integer .u16 number.toBitVec⟩

instance : OfValue UInt16 := ⟨fun value ↦ (IntegerKind.u16.ofValue value).map UInt16.ofBitVec⟩

instance : ToValue Int32 := ⟨fun number ↦ .integer .i32 number.toBitVec⟩

instance : OfValue Int32 := ⟨fun value ↦ (IntegerKind.i32.ofValue value).map Int32.ofBitVec⟩

instance : ToValue UInt32 := ⟨fun number ↦ .integer .u32 number.toBitVec⟩

instance : OfValue UInt32 := ⟨fun value ↦ (IntegerKind.u32.ofValue value).map UInt32.ofBitVec⟩

instance : ToValue Int64 := ⟨fun number ↦ .integer .i64 number.toBitVec⟩

instance : OfValue Int64 := ⟨fun value ↦ (IntegerKind.i64.ofValue value).map Int64.ofBitVec⟩

instance : ToValue UInt64 := ⟨fun number ↦ .integer .u64 number.toBitVec⟩

instance : OfValue UInt64 := ⟨fun value ↦ (IntegerKind.u64.ofValue value).map UInt64.ofBitVec⟩

instance : ToValue Binary32 := ⟨.f32⟩

instance : OfValue Binary32 where
  ofValue
    | .f32 number => .ok number
    | other => .error (other.mismatch "f32")

instance : ToValue Binary64 := ⟨.f64⟩

instance : OfValue Binary64 where
  ofValue
    | .f64 number => .ok number
    | other => .error (other.mismatch "f64")

instance : ToValue Decimal := ⟨.decimal⟩

instance : OfValue Decimal where
  ofValue
    | .decimal number => .ok number
    | other => .error (other.mismatch "decimal")

instance : ToValue Char := ⟨.char⟩

instance : OfValue Char where
  ofValue
    | .char char => .ok char
    | other => .error (other.mismatch "char")

instance : ToValue String := ⟨.text⟩

instance : OfValue String where
  ofValue
    | .text text => .ok text
    | other => .error (other.mismatch "string")

instance {α : Type} [ToValue α] : ToValue (List α) := ⟨fun items ↦ .list (items.map toValue)⟩

/-- A list is read item by item; the first item that cannot be read is the error. -/
instance {α : Type} [OfValue α] : OfValue (List α) where
  ofValue
    | .list items => items.mapM ofValue
    | other => .error (other.mismatch "list")

/-- Takes a member out of a record and reads it.  The member is gone even if it cannot be read. -/
def Members.take {α : Type} [OfValue α] (name : String) (members : Members) :
    Except DataError α × Members :=
  match members.find? name with
  | some value => (ofValue value, members.erase name)
  | none => (.error (.missingField name), members)

end WireFormat
