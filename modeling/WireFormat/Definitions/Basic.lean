import WireFormat.Layout

/-!
# Definitions of layouts

Definitions describe layouts as plain data, such as a file beside a program.  Fields refer to record
types and enums by name.  Codecs cannot be defined this way.
-/

namespace WireFormat

/-- A member of a defined enum. -/
structure EnumMemberDef where
  name : String
  value : Int64
deriving DecidableEq, Repr

/-- A defined enum. -/
structure EnumDef where
  name : String
  underlying : ScalarKind
  members : List EnumMemberDef
deriving DecidableEq, Repr

/-- A defined tag. -/
inductive TagDef where
  | primitive
  | boolean (equivalent : Option ScalarKind)
  | enum (equivalent : Option ScalarKind)
  | text (encoding : Encoding) (nullTerminated : Bool) (fixedLength : Option UInt64)
      (lengthKey : Option String)
  | list (fixedLength : Option UInt64) (lengthKey : Option String)
  | record
deriving DecidableEq, Repr

mutual

/-- A defined shape. -/
inductive ShapeDef where
  | scalar (kind : ScalarKind)
  /-- An enum by its name. -/
  | enum (name : String)
  | text
  | list (element : ElementDef)
  /-- A record type by its name. -/
  | record (name : String)

/-- The elements of a defined list. -/
structure ElementDef where
  shape : ShapeDef
  tag : Option TagDef

end

/-- A defined field. -/
structure FieldDef where
  name : String
  /-- The place of the field on the wire.  A field without one is never written. -/
  order : Option UInt32
  shape : ShapeDef
  tag : Option TagDef
  byteOrder : Option ByteOrder
  bits : Option UInt32
  padAfter : Bool
  /-- The key of the length that the field carries. -/
  lengthOf : Option String
  serialize : Bool

/-- A defined record type. -/
structure TypeDef where
  name : String
  byteOrder : Option ByteOrder
  fields : List FieldDef

/-- Record types and enums, with the name of the record type that matters. -/
structure Definitions where
  root : String
  types : List TypeDef
  enums : List EnumDef

/-- The enum that is defined. -/
def EnumDef.toType (definition : EnumDef) : EnumType :=
  ⟨definition.name, definition.underlying,
    definition.members.map fun member ↦ (member.name, member.value.toInt)⟩

/-- The tag that is defined. -/
def TagDef.toTag : TagDef → Tag
  | primitive => .primitive
  | boolean equivalent => .boolean equivalent
  | enum equivalent => .enum equivalent
  | text encoding nullTerminated fixedLength lengthKey =>
    .text ⟨encoding, nullTerminated, fixedLength.map UInt64.toNat, lengthKey⟩
  | list fixedLength lengthKey => .list ⟨fixedLength.map UInt64.toNat, lengthKey⟩
  | record => .record

end WireFormat
