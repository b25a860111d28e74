import WireFormat.Descriptor.Analysis
import WireFormat.Plan.Compile
import WireFormat.Plan.Decode
import WireFormat.Plan.Encode

/-!
# Schemas

A schema is a layout that has been checked and compiled.  `Schema.ofLayout` reports everything that
is wrong with a layout before any value is looked at; `Schema.serialize` and `Schema.deserialize`
then write and read values.
-/

namespace WireFormat

/-- A compiled layout. -/
structure Schema where
  /-- The name of the record type. -/
  name : String
  descriptor : Descriptor
  plan : Plan

namespace Schema

/-- Checks a layout and compiles it. -/
def ofLayout (layout : Layout) : Except LayoutError Schema := do
  let descriptor ← layout.describe
  let plan ← Plan.ofDescriptor descriptor
  return ⟨layout.name, descriptor, plan⟩

/-- Whether every value takes `minSize` bytes. -/
def hasFixedSize (schema : Schema) : Bool := schema.plan.hasFixedSize

/-- A number of bytes that every value takes at least. -/
def minSize (schema : Schema) : Nat := schema.plan.minSize.toNat

/-- The members of a value that can be written, which has to be a record. -/
def rootMembers (value : Value) : Except Error Members := value.members.mapError .data

/-- Writes the members of a record and says how many bytes they took. -/
def write (schema : Schema) (members : Members) : WriteM Nat := do
  schema.plan.root.encode {} members
  Writer.finish

/-- Writes a value to a sink.  The answer is the number of bytes, and the sink afterwards: what was
written before an error stays written. -/
def serialize (schema : Schema) (value : Value) (sink : Sink) : Except Error Nat × Sink :=
  match rootMembers value with
  | .error error => (.error error, sink)
  | .ok members =>
    match schema.write members { sink := sink } with
    | .ok count writer => (.ok count, writer.sink)
    | .error error writer => (.error error, writer.sink)

/-- Reads a value from the front of some bytes.  The answer is the value, and the bytes that are
left. -/
def deserialize (schema : Schema) (bytes : List UInt8) : Except Error Value × List UInt8 :=
  match schema.plan.root.decode {} { source := bytes } with
  | .ok members reader => (.ok (.record members), reader.source)
  | .error error reader => (.error error, reader.source)

/-- Reads a value from the front of some bytes, of which there must be `minSize` at least. -/
def ofBytes (schema : Schema) (bytes : List UInt8) : Except Error Value :=
  if bytes.length < schema.minSize then
    .error (.data (.bufferTooShort schema.minSize bytes.length))
  else
    (schema.deserialize bytes).1

/-- The bytes of a value. -/
def toBytes (schema : Schema) (value : Value) : Except Error (List UInt8) :=
  match schema.serialize value {} with
  | (.ok _, sink) => .ok sink.bytes.toList
  | (.error error, _) => .error error

end Schema

end WireFormat
