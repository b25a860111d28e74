import WireFormat.Schema.Basic
import WireFormat.Value.Convert

/-!
# Types with a layout

A type with a layout of its own can be written and read without values in between: a `Serializer`
and a `Deserializer` are bound to the schema of the type.
-/

namespace WireFormat

/-- A type whose elements are records on the wire.  `toValue` has to give a record with every field
that the layout declares. -/
class WireType (α : Type) extends ToValue α, OfValue α where
  /-- A name that no other type has; caches tell types apart by it. -/
  typeId : String
  layout : Layout

/-- Writes the elements of a type. -/
structure Serializer (α : Type) where
  schema : Schema

/-- Reads the elements of a type. -/
structure Deserializer (α : Type) where
  schema : Schema

variable {α : Type} [WireType α]

namespace Serializer

/-- The serializer of a type, if its layout makes sense. -/
def ofType (α : Type) [WireType α] : Except LayoutError (Serializer α) :=
  (Schema.ofLayout (WireType.layout α)).map fun schema ↦ ⟨schema⟩

/-- Writes an element to a sink. -/
def serialize (serializer : Serializer α) (element : α) (sink : Sink) : Except Error Nat × Sink :=
  serializer.schema.serialize (toValue element) sink

/-- The bytes of an element. -/
def toBytes (serializer : Serializer α) (element : α) : Except Error (List UInt8) :=
  serializer.schema.toBytes (toValue element)

/-- The serializer in words. -/
def describe {α : Type} (serializer : Serializer α) : String :=
  "Serializer \x7b schema: \"" ++ serializer.schema.name ++ "\" \x7d"

end Serializer

namespace Deserializer

/-- The deserializer of a type, if its layout makes sense. -/
def ofType (α : Type) [WireType α] : Except LayoutError (Deserializer α) :=
  (Schema.ofLayout (WireType.layout α)).map fun schema ↦ ⟨schema⟩

/-- Reads an element from the front of some bytes, and says which bytes are left. -/
def deserialize (deserializer : Deserializer α) (bytes : List UInt8) :
    Except Error α × List UInt8 :=
  match deserializer.schema.deserialize bytes with
  | (.ok value, rest) => ((ofValue value).mapError .data, rest)
  | (.error error, rest) => (.error error, rest)

/-- Reads an element from the front of some bytes, of which there must be enough at least. -/
def ofBytes (deserializer : Deserializer α) (bytes : List UInt8) : Except Error α := do
  let value ← deserializer.schema.ofBytes bytes
  (ofValue value).mapError .data

/-- The deserializer in words. -/
def describe {α : Type} (deserializer : Deserializer α) : String :=
  "Deserializer \x7b schema: \"" ++ deserializer.schema.name ++ "\" \x7d"

end Deserializer

end WireFormat
