import WireFormat.Proofs.Length.Demands
import WireFormat.Proofs.Stream.Moves
import WireFormat.Text.Transcode

/-!
# The moves of a value

`Descriptor.Writes` says which moves a value makes under a descriptor, without a plan, a writer or a
reader.  Writing and reading meet in it: a value that is written makes these moves, and they are
read back as the value.

* `LengthFeed.count` — what a length counts in a value;
* `SizePolicy.filled?` — a list with its free slots filled;
* `Descriptor.Writes` — the moves of a value.
-/

namespace WireFormat

/-! ## Lengths -/

/-- The member that a path leads to. -/
def Value.follow? : List String → Value → Option Value
  | [], value => some value
  | name :: path, value => (value.member? name).bind (follow? path)

/-- The number of elements of a list, or of bytes of a text. -/
def Measure.count : Measure → Value → Option Nat
  | elements, .list items => some items.length
  | bytes encoding, .text text => (encoding.encode text).toOption.map List.length
  | _, _ => none

/-- What a length counts in the value of its record. -/
def LengthFeed.count (feed : LengthFeed) (value : Value) : Option Nat :=
  (value.follow? feed.path).bind feed.measure.count

/-! ## Sizes -/

/-- The items of a list and what fills the free slots after them; `none` if there are too many
items, or nothing to fill slots with. -/
def SizePolicy.filled? {κ : Type} (policy : SizePolicy κ) (default? : Option Value)
    (items : List Value) : Option (List Value) :=
  match policy.slots? with
  | none => some items
  | some slots =>
    if slots < items.length then none
    else if slots = items.length then some items
    else default?.map fun value ↦ items ++ List.replicate (slots - items.length) value

/-- The moves of a text with the given bytes. -/
inductive TextSize.Writes {κ : Type} (encoding : Encoding) (bytes : List UInt8) :
    TextSize κ → List Move → Prop where
  | nullTerminated (nul : 0 ∉ bytes) :
      Writes encoding bytes nullTerminated [.bytes bytes, .bytes [0]]
  | keyed (key : κ) : Writes encoding bytes (sized (.keyed key)) [.bytes bytes, .bytes []]
  | fixed {slots : Nat} (le : bytes.length ≤ slots)
      (terminable : bytes.length < slots → encoding.isNullTerminable) :
      Writes encoding bytes (sized (.fixed slots))
        [.bytes bytes, .bytes (List.replicate (slots - bytes.length) 0)]
  | padded (key : κ) {slots : Nat} (le : bytes.length ≤ slots) :
      Writes encoding bytes (sized (.padded key slots))
        [.bytes bytes, .bytes (List.replicate (slots - bytes.length) 0)]

/-! ## Scalars and bit fields -/

/-- The moves of a value as a scalar. -/
def Flavor.WritesScalar (flavor : Flavor) (kind : ScalarKind) (byteOrder : ByteOrder) (value : Value)
    (moves : List Move) : Prop :=
  ∃ raw, flavor.encode kind value = .ok raw ∧
    moves = [.bytes (wireBytes kind.width raw (byteOrder.reverses kind.width))]

/-- The moves of a length in the field that carries it. -/
def DescriptorKind.WritesLength (byteOrder : ByteOrder) (length : Nat) (moves : List Move) :
    DescriptorKind → Prop
  | .scalar kind => ∃ raw, Value.integerToRaw kind length = .ok raw ∧
      moves = [.bytes (wireBytes kind.width raw (byteOrder.reverses kind.width))]
  | .bits .integer repr width container => ∃ bits, bitsOf length repr.isSigned width = .ok bits ∧
      moves = [.bits bits container width (byteOrder.reverses container)]
  | _ => False

namespace FieldDescriptor

/-- The move that ends the container after a field, if the field asks for it. -/
def padding (padAfter : Bool) : List Move := if padAfter then [.bytes []] else []

/-- The moves of a field by itself.  If it carries a length, they are those of what the length
counts, otherwise those of the member of its name. -/
def WritesOwn (demands : List Demand) (members : Members) (name : String) (descriptor : Descriptor)
    (lengthOf : Option String) (writes : Value → List Move → Prop) (moves : List Move) : Prop :=
  match lengthOf with
  | some key => ∃ feed length, feedOf demands key = some feed ∧
      feed.count (.record members) = some length ∧
      descriptor.kind.WritesLength descriptor.byteOrder length moves
  | none => ∃ value, members.find? name = some value ∧ writes value moves

end FieldDescriptor

/-! ## Descriptors -/

mutual

/-- The moves of a value. -/
def Descriptor.Writes : Descriptor → Value → List Move → Prop
  | ⟨kind, byteOrder, _, _⟩ => kind.Writes byteOrder

/-- The moves of a value of a kind. -/
def DescriptorKind.Writes (byteOrder : ByteOrder) : DescriptorKind → Value → List Move → Prop
  | .scalar kind, value, moves => Flavor.native.WritesScalar kind byteOrder value moves
  | .boolean repr, value, moves =>
    Flavor.boolean.WritesScalar (.integer repr) byteOrder value moves
  | .enum repr _, value, moves => Flavor.enum.WritesScalar (.integer repr) byteOrder value moves
  | .bits content repr width container, value, moves =>
    if width = 0 then
      moves = [.bytes []]
    else
      ∃ bits, content.flavor.encodeBits (.integer repr) width value = .ok bits ∧
        moves = [.bits bits container width (byteOrder.reverses container)]
  | .text encoding size, value, moves =>
    ∃ text bytes, value = .text text ∧ encoding.encode text = .ok bytes ∧
      size.Writes encoding bytes moves
  | .list element size, value, moves =>
    ∃ items filled parts, value = .list items ∧ size.filled? element.default? items = some filled ∧
      List.Forall₂ element.Writes filled parts ∧ moves = parts.flatten
  | .record name fields, value, moves =>
    ∃ members inner, value = .record members ∧
      FieldDescriptor.WritesAll (FieldDescriptor.demandsAll name fields fields) members fields
        inner ∧
      moves = .bytes [] :: inner ++ [.bytes []]
  | .custom _ _, _, _ => False

/-- The moves of the members of a record. -/
def FieldDescriptor.WritesAll (demands : List Demand) (members : Members) :
    List FieldDescriptor → List Move → Prop
  | [], moves => moves = []
  | ⟨name, _, descriptor, serialize, lengthOf, padAfter⟩ :: rest, moves =>
    if serialize then
      ∃ own more,
        FieldDescriptor.WritesOwn demands members name descriptor lengthOf descriptor.Writes own ∧
        FieldDescriptor.WritesAll demands members rest more ∧
        moves = own ++ FieldDescriptor.padding padAfter ++ more
    else
      FieldDescriptor.WritesAll demands members rest moves

end

namespace FieldDescriptor

variable {demands : List Demand} {members : Members} {rest : List FieldDescriptor}
  {field : FieldDescriptor} {moves : List Move}

theorem writesAll_cons_of_serialize (h : field.serialize = true) :
    WritesAll demands members (field :: rest) moves ↔
      ∃ own more,
        WritesOwn demands members field.name field.descriptor field.lengthOf field.descriptor.Writes
          own ∧
        WritesAll demands members rest more ∧
        moves = own ++ padding field.padAfter ++ more := by
  obtain ⟨name, order, descriptor, serialize, lengthOf, padAfter⟩ := field
  obtain rfl : serialize = true := h
  rfl

theorem writesAll_cons_of_not_serialize (h : field.serialize = false) :
    WritesAll demands members (field :: rest) moves ↔ WritesAll demands members rest moves := by
  obtain ⟨name, order, descriptor, serialize, lengthOf, padAfter⟩ := field
  obtain rfl : serialize = false := h
  rfl

end FieldDescriptor

end WireFormat
