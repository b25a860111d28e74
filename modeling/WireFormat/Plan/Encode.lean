import WireFormat.Plan.Basic
import WireFormat.Text.Transcode
import WireFormat.Traversal

/-!
# Writing values

`RecordPlan.encode` writes the members of a record under its plan.  Records start and end on a byte.
A field that carries a length is written with the length of what takes it, whatever its own value
is.  Every error gets the path of the innermost field it arose in.
-/

namespace WireFormat

/-- Takes a result that may be an error of the data into the writer. -/
def WriteM.ofData {α : Type} : Except DataError α → WriteM α
  | .ok result => pure result
  | .error error => throw (.data error)

/-- Adds a path to the errors that have none. -/
def WriteM.locate {α : Type} (path : Path) (action : WriteM α) : WriteM α :=
  EStateM.adaptExcept (Error.locate path) action

/-- The error of a member on the way to what a length measures, with the number of members up to
it. -/
abbrev MeasureError := Nat × DataError

namespace LengthFeed

/-- The members of the record that a path leads to; `depth` members have been passed already. -/
def reach (depth : Nat) (members : Members) : List String → Except MeasureError Members
  | [] => .ok members
  | name :: rest =>
    match members.find? name with
    | none => .error (depth + 1, .missingField name)
    | some (.record members) => reach (depth + 1) members rest
    | some other => .error (depth + 1, other.mismatch "struct")

/-- The length of a value. -/
def lengthOf (measure : Measure) (value : Value) : Except DataError Nat :=
  match measure, value with
  | .elements, .list items => .ok items.length
  | .elements, other => .error (other.mismatch "list")
  | .bytes encoding, .text text => encoding.encodedLength text
  | .bytes _, other => .error (other.mismatch "string")

/-- The length of what a feed leads to, from the members of the record of the length field. -/
def measured (feed : LengthFeed) (members : Members) : Except MeasureError Nat := do
  match feed.path.getLast? with
  | none => return 0
  | some target =>
    let members ← reach 0 members feed.path.dropLast
    let depth := feed.path.length
    match members.find? target with
    | none => throw (depth, .missingField target)
    | some value => (lengthOf feed.measure value).mapError (depth, ·)

end LengthFeed

namespace Operation

/-- Writes a length into an integer field. -/
def encodeLength (length : Nat) : Operation → WriteM Unit
  | scalar repr swap _ => do
    let raw ← WriteM.ofData (Value.integerToRaw repr length)
    Writer.writeRaw repr.width raw swap
  | bits repr width container swap _ => do
    let bits ← WriteM.ofData (bitsOf length repr.isSigned width)
    Writer.pack bits container width swap
  | _ => throw (.data (.invalidLength length))

/-- The number of bytes that a text may take, for a text of `length` bytes.  Zeros after a text mark
its end only where the encoding lets them. -/
def textSlots (encoding : Encoding) (policy : SizePolicy LengthSource) (length : Nat) :
    Except DataError Nat :=
  match policy with
  | .keyed _ => .ok length
  | .fixed slots =>
    if length < slots ∧ !encoding.isNullTerminable then
      .error (.unpaddableText length slots encoding)
    else
      .ok slots
  | .padded _ slots => .ok slots

/-- Writes a text. -/
def encodeText (encoding : Encoding) (size : TextSize LengthSource) (value : Value) :
    WriteM Unit := do
  let content ←
    match value with
    | .text content => pure content
    | other => throw (.data (other.mismatch "string"))
  let bytes ← WriteM.ofData (encoding.encode content)
  match size with
  | .nullTerminated =>
    if bytes.contains 0 then
      throw (.data .interiorNul)
    Writer.writeBytes bytes
    Writer.writeZeros 1
  | .sized policy =>
    let slots ← WriteM.ofData (textSlots encoding policy bytes.length)
    if slots < bytes.length then
      throw (.data (.tooManyBytes bytes.length slots))
    Writer.writeBytes bytes
    Writer.writeZeros (slots - bytes.length)

/-- The free slots after `count` items of a list, as their number and the default that goes into
each; `none` if there is no free slot. -/
def freeSlots? (policy : SizePolicy LengthSource) (default? : Option Value) (count : Nat) :
    Except DataError (Option (Nat × Value)) :=
  match policy.slots? with
  | none => .ok none
  | some slots =>
    if slots < count then
      .error (.tooManyElements count slots)
    else if slots = count then
      .ok none
    else
      match default? with
      | none => .error (.noDefault (slots - count))
      | some value => .ok (some (slots - count, value))

/-- Does something for each item of a list, with its position. -/
def forItems (action : Nat → Value → WriteM Unit) (position : Nat) : List Value → WriteM Unit
  | [] => pure ()
  | item :: rest => do
    action position item
    forItems action (position + 1) rest

/-- Does something for each of `count` copies of an item, with its position. -/
def forCopies (action : Nat → Value → WriteM Unit) (item : Value) (position : Nat) :
    Nat → WriteM Unit
  | 0 => pure ()
  | count + 1 => do
    action position item
    forCopies action item (position + 1) count

/-- Copies are handled as any other items, but never made. -/
theorem forCopies_eq (action : Nat → Value → WriteM Unit) (item : Value) (position count : Nat) :
    forCopies action item position count =
      forItems action position (List.replicate count item) := by
  induction count generalizing position with
  | zero => rfl
  | succ count ih => rw [forCopies, List.replicate_succ, forItems, ih]

/-- Lets a codec write a value.  The bytes written meanwhile are held against its promise. -/
def encodeCustom (codec : Codec) (context : Option Members) (value : Value) : WriteM Unit := do
  let start := (← get).position
  (codec.encode value context).run
  Writer.flushBits
  let actual := (← get).position - start
  if !decide (codec.size.Admits actual) then
    throw (.data (.sizeContract actual codec.size))

end Operation

mutual

/-- Writes a value. -/
def Operation.encode (traversal : Traversal Members) (value : Value) : Operation → WriteM Unit
  | .scalar repr swap flavor => do
    let raw ← WriteM.ofData (flavor.encode repr value)
    Writer.writeRaw repr.width raw swap
  | .bits repr width container swap flavor => do
    if width = 0 then
      Writer.flushBits
    else
      let bits ← WriteM.ofData (flavor.encodeBits (.integer repr) width value)
      Writer.pack bits container width swap
  | .text encoding size => Operation.encodeText encoding size value
  | .list element policy default? => do
    let items ←
      match value with
      | .list items => pure items
      | other => throw (.data (other.mismatch "list"))
    let free ← WriteM.ofData (Operation.freeSlots? policy default? items.length)
    let encodeItem := fun position item ↦
      let inner := traversal.enterIndex position
      WriteM.locate inner.path (element.encode inner item)
    Operation.forItems encodeItem 0 items
    match free with
    | none => pure ()
    | some (count, value) => Operation.forCopies encodeItem value items.length count
  | .record plan => do
    let members ← WriteM.ofData value.members
    plan.encode traversal members
  | .custom codec context =>
    Operation.encodeCustom codec (context.bind traversal.findSubject?) value

/-- Writes the members of a record. -/
def RecordPlan.encode (traversal : Traversal Members) (members : Members) : RecordPlan → WriteM Unit
  | ⟨name, fields, _⟩ => do
    Writer.flushBits
    FieldPlan.encodeAll (traversal.push name members) members fields
    Writer.flushBits

/-- Writes fields of a record one after the other. -/
def FieldPlan.encodeAll (traversal : Traversal Members) (members : Members) :
    List FieldPlan → WriteM Unit
  | [] => pure ()
  | ⟨name, operation, _, feed, padAfter⟩ :: rest => do
    let inner := traversal.enter name
    WriteM.locate inner.path do
      match feed with
      | some feed =>
        match feed.measured members with
        | .ok length => operation.encodeLength length
        | .error (depth, error) =>
          throw (.located (inner.siblingPath (feed.path.take depth)) (.data error))
      | none =>
        match members.find? name with
        | some value => operation.encode inner value
        | none => throw (.data (.missingField name))
      if padAfter then
        Writer.flushBits
    FieldPlan.encodeAll traversal members rest

end

end WireFormat
