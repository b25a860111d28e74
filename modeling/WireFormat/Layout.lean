import WireFormat.Codec

/-!
# Layouts

A layout declares how the values of a record type lie on the wire.  Each field says what it holds,
its `Shape`, apart from how that is to be written, its `Tag`, so that a tag can be refused where it
describes nothing.  Nothing here is checked.
-/

namespace WireFormat

/-- A declared enum: the integer kind it has by nature and its members. -/
structure EnumType where
  name : String
  underlying : ScalarKind
  members : List (String × Int)
deriving DecidableEq, Repr

/-- The number of a member; of two with one name the first counts. -/
def EnumType.find? (type : EnumType) (name : String) : Option Int := type.members.lookup name

/-- How a text is written: its encoding and what decides about its size. -/
structure TextTag where
  encoding : Encoding
  nullTerminated : Bool := false
  /-- The size of the slot in bytes. -/
  fixedLength : Option Nat := none
  lengthKey : Option String := none
deriving DecidableEq, Repr

/-- What decides about the size of a list. -/
structure ListTag where
  /-- The number of slots. -/
  fixedLength : Option Nat := none
  lengthKey : Option String := none
deriving DecidableEq, Repr

/-- How a field is to be written. -/
inductive Tag where
  | primitive
  /-- As an integer, of the kind `i32` unless another is given. -/
  | boolean (equivalent : Option ScalarKind)
  /-- As an integer, of the underlying kind unless another is given. -/
  | enum (equivalent : Option ScalarKind)
  | text (tag : TextTag)
  | list (tag : ListTag)
  | record
  /-- By a codec, which gets the enclosing record of a type name as its context. -/
  | custom (codec : Codec) (context : Option String)

/-- What a tag is called in messages. -/
def Tag.label : Tag → String
  | primitive => "primitive"
  | boolean _ => "boolean"
  | enum _ => "enum"
  | text _ => "string"
  | list _ => "collection"
  | record => "composite"
  | custom _ _ => "custom codec"

mutual

/-- What a field holds. -/
inductive Shape where
  | scalar (kind : ScalarKind)
  | enum (type : EnumType)
  | text
  | list (element : Element)
  | record (layout : Layout)

/-- The elements of a list. -/
structure Element where
  shape : Shape
  tag : Option Tag := none

/-- A declared field. -/
structure Field where
  name : String
  /-- The place of the field on the wire.  A field without one is not part of the layout. -/
  order : Option Nat
  shape : Shape
  tag : Option Tag := none
  /-- The byte order, if it differs from that of the record. -/
  byteOrder : Option ByteOrder := none
  /-- The number of bits, if the field is packed.  No bits end the container. -/
  bitWidth : Option Nat := none
  /-- Whether the container ends after the field. -/
  padAfter : Bool := false
  /-- The key of the length that the field carries. -/
  lengthOf : Option String := none
  /-- Whether the field is on the wire at all. -/
  serialize : Bool := true

/-- A record type. -/
structure Layout where
  name : String
  /-- The byte order of the fields, if it differs from that around the record. -/
  byteOrder : Option ByteOrder := none
  fields : List Field

end

/-- What a shape is called in messages. -/
def Shape.label : Shape → String
  | scalar .bool => "boolean"
  | scalar (.integer _) => "integer"
  | scalar .f32 | scalar .f64 => "float"
  | scalar .decimal => "decimal"
  | scalar .char => "char"
  | enum _ => "enum"
  | text => "string"
  | list _ => "list"
  | record _ => "struct"

end WireFormat
