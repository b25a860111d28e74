import WireFormat.Plan.Basic
import WireFormat.Text.Transcode
import WireFormat.Traversal

/-!
# Reading values

`RecordPlan.decode` reads the members of a record under its plan.  A length that has been read is
kept with its record, for the lists and texts that take it.  Elements in free slots are read and
dropped.  Every error gets the path of the innermost field it arose in.
-/

namespace WireFormat

/-- Takes a result that may be an error of the data into the reader. -/
def ReadM.ofData {α : Type} : Except DataError α → ReadM α
  | .ok result => pure result
  | .error error => throw (.data error)

/-- Adds a path to the errors that have none. -/
def ReadM.locate {α : Type} (path : Path) (action : ReadM α) : ReadM α :=
  EStateM.adaptExcept (Error.locate path) action

namespace Traversal

/-- The length that has been read for a list or text. -/
def sourceLength (traversal : Traversal Members) (source : LengthSource) : Except DataError Nat :=
  match traversal.length? source.up source.key with
  | none => .error (.missingLength source.key)
  | some length => if 0 ≤ length then .ok length.toNat else .error (.invalidLength length)

/-- The number of elements or bytes to keep and the number of those on the wire. -/
def extent (traversal : Traversal Members) :
    SizePolicy LengthSource → Except DataError (Nat × Nat)
  | .fixed slots => .ok (slots, slots)
  | .keyed source => do
    let length ← traversal.sourceLength source
    return (length, length)
  | .padded source slots => do
    let length ← traversal.sourceLength source
    if slots < length then
      throw (.lengthExceedsFixed length slots)
    return (length, slots)

end Traversal

namespace Operation

/-- Reads the bytes of a text.  In a slot without a length, the text ends with the first zero byte,
where the encoding lets it. -/
def decodeTextBytes (traversal : Traversal Members) (encoding : Encoding)
    (size : TextSize LengthSource) : ReadM (List UInt8) := do
  match size with
  | .nullTerminated => Reader.readUntilNul
  | .sized (.fixed slots) =>
    let bytes ← Reader.readBytes slots
    return if encoding.isNullTerminable then bytes.takeWhile (· != 0) else bytes
  | .sized policy =>
    let (length, slots) ← ReadM.ofData (traversal.extent policy)
    let bytes ← Reader.readBytes length
    Reader.skip (slots - length)
    return bytes

/-- Reads `count` elements and keeps those before the position `kept`.  The elements read before are
in `items`, the last first. -/
def decodeItems (action : Nat → ReadM Value) (kept position : Nat) (items : List Value) :
    Nat → ReadM (List Value)
  | 0 => return items.reverse
  | count + 1 => do
    let item ← action position
    decodeItems action kept (position + 1) (if position < kept then item :: items else items) count

/-- Lets a codec read a value.  The bytes read meanwhile are held against its promise. -/
def decodeCustom (codec : Codec) (context : Option Members) : ReadM Value := do
  let start := (← get).position
  let value ← (codec.decode context).run
  Reader.resetBits
  let actual := (← get).position - start
  if !decide (codec.size.Admits actual) then
    throw (.data (.sizeContract actual codec.size))
  return value

end Operation

/-- Keeps a field that has been read, and the length it carries. -/
def FieldPlan.keep (traversal : Traversal Members) (name : String) (lengthOf : Option String)
    (value : Value) : Except DataError (Traversal Members) := do
  let traversal ←
    match lengthOf with
    | none => pure traversal
    | some key =>
      match value.toInteger? with
      | some length => pure (traversal.record key length)
      | none => throw (value.mismatch "integer")
  return traversal.modifySubject (Members.insert name value)

mutual

/-- Reads a value. -/
def Operation.decode (traversal : Traversal Members) : Operation → ReadM Value
  | .scalar repr swap flavor => do
    let raw ← Reader.readRaw repr.width swap
    ReadM.ofData (flavor.decode repr raw)
  | .bits repr width container swap flavor => do
    if width = 0 then
      Reader.resetBits
      return flavor.zero (.integer repr)
    else
      let bits ← Reader.unpack container width swap
      ReadM.ofData (flavor.decodeBits (.integer repr) width bits)
  | .text encoding size => do
    let bytes ← Operation.decodeTextBytes traversal encoding size
    return .text (← ReadM.ofData (encoding.decode bytes))
  | .list element policy _ => do
    let (length, slots) ← ReadM.ofData (traversal.extent policy)
    let items ← Operation.decodeItems (fun position ↦
      let inner := traversal.enterIndex position
      ReadM.locate inner.path (element.decode inner)) length 0 [] slots
    return .list items
  | .record plan => do
    return .record (← plan.decode traversal)
  | .custom codec context => Operation.decodeCustom codec (context.bind traversal.findSubject?)

/-- Reads the members of a record. -/
def RecordPlan.decode (traversal : Traversal Members) : RecordPlan → ReadM Members
  | ⟨name, fields, skipped⟩ => do
    Reader.resetBits
    let members ← FieldPlan.decodeAll (traversal.push name []) fields
    Reader.resetBits
    return skipped.foldl (fun members field ↦ Members.insert field.1 field.2 members) members

/-- Reads fields of a record one after the other, and answers with all members of the record. -/
def FieldPlan.decodeAll (traversal : Traversal Members) : List FieldPlan → ReadM Members
  | [] => return traversal.subject?.getD []
  | ⟨name, operation, lengthOf, _, padAfter⟩ :: rest => do
    let inner := traversal.enter name
    let traversal ← ReadM.locate inner.path do
      let value ← operation.decode inner
      ReadM.ofData (FieldPlan.keep traversal name lengthOf value)
    if padAfter then
      Reader.resetBits
    FieldPlan.decodeAll traversal rest

end

end WireFormat
