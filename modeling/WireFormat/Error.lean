import WireFormat.Hex
import WireFormat.Path
import WireFormat.SizeContract
import WireFormat.Text.Encoding
import WireFormat.Text.Quoted

/-!
# Errors

Four families, from the declaration of a layout to the bytes:

* `LayoutError` — a layout that makes no sense, with the type and field at fault (`LayoutFault`);
* `DataError` — a value or some bytes that do not suit a layout (before it is known where);
* `IoFailure` — a sink that is full or a source that has run out;
* `Error` — any of them, and `Error.located`, which adds the path of the field at fault.

`Error.locate` adds a path once only: an error that has one keeps it.  Each family has one
`message`.
-/

namespace WireFormat

/-- What is wrong with a layout. -/
inductive LayoutFault where
  /-- A list or text field says nothing about its size. -/
  | missingTag (shape : String) (expected : String)
  /-- A field carries a tag that cannot describe it. -/
  | tagMismatch (tag : String) (shape : String)
  /-- A boolean or an enum is to be sent as a scalar that is no integer. -/
  | nonIntegralEquivalent (kind : ScalarKind)
  /-- A declared member of an enum does not fit the integer it is sent as. -/
  | enumOutOfRange (member : String) (value : Int) (repr : IntegerKind)
  | missingSizePolicy
  | conflictingSizePolicy
  | nullTerminationUnsupported (encoding : Encoding)
  | zeroFixedLength
  /-- A field of this shape cannot be packed into bits. -/
  | invalidBitfield (shape : String)
  /-- A field asks for more bits than its integer kind has. -/
  | bitWidthTooWide (width : Nat) (repr : IntegerKind)
  /-- A field does not fit the containers that the first field of its run has opened. -/
  | bitfieldExceedsContainer (width : Nat) (container : Nat)
  /-- Fields of one run disagree about the byte order of their container. -/
  | mixedContainerOrder
  | duplicateName
  | duplicateOrder (order : Nat)
  /-- Two fields of a record carry the same length. -/
  | duplicateLengthField (key : String)
  /-- Two lists or texts take the same length. -/
  | duplicateLengthConsumer (key : String)
  | unresolvedLengthKey (key : String)
  | ambiguousLengthKey (key : String)
  /-- A field carries a length that nothing takes. -/
  | unusedLengthField (key : String)
  /-- An element of a list takes a length from outside the element. -/
  | lengthKeyInRepeatedElement (key : String)
  /-- A length comes after the list or text that takes it. -/
  | lengthOrder (key : String) (lengthOrder : Nat) (consumerOrder : Nat)
  /-- A list whose length is read from the wire has elements that take no bytes. -/
  | zeroSizedElement
  | nonIntegralLengthField (key : String)
  | recursiveType (name : String)
  | unknownType (name : String)
deriving DecidableEq, Repr

namespace LayoutFault

/-- The fault in words. -/
def message : LayoutFault → String
  | missingTag shape expected => s!"{shape} field carries no {expected} annotation"
  | tagMismatch tag shape => s!"{tag} annotation cannot describe a {shape} field"
  | nonIntegralEquivalent kind => s!"equivalent type {kind.name} is not integral"
  | enumOutOfRange member value repr =>
    s!"enum member `{member}` = {value} does not fit {repr.name}"
  | missingSizePolicy => "no size policy: set a fixed length, a length key or null termination"
  | conflictingSizePolicy =>
    "null termination cannot be combined with a fixed length or a length key"
  | nullTerminationUnsupported encoding => s!"{encoding.name} strings cannot be null terminated"
  | zeroFixedLength => "fixed length must be greater than zero"
  | invalidBitfield shape => s!"a {shape} field cannot be a bitfield"
  | bitWidthTooWide width repr => s!"bit width {width} exceeds the {repr.bits} bits of {repr.name}"
  | bitfieldExceedsContainer width container =>
    s!"{width}-bit field does not fit the run's {container}-byte container"
  | mixedContainerOrder => "bitfields sharing a container disagree on byte order"
  | duplicateName => "field name is used more than once"
  | duplicateOrder order => s!"order {order} is used by more than one field"
  | duplicateLengthField key => s!"length key `{key}` is carried by more than one field"
  | duplicateLengthConsumer key => s!"length key `{key}` is referenced by more than one collection"
  | unresolvedLengthKey key => s!"length key `{key}` does not match any length field"
  | ambiguousLengthKey key => s!"length key `{key}` matches more than one length field"
  | unusedLengthField key => s!"length field for `{key}` feeds no collection or string"
  | lengthKeyInRepeatedElement key => s!"length key `{key}` reaches outside a repeated element"
  | lengthOrder key length consumer =>
    s!"length field for `{key}` (order {length}) must precede its consumer (order {consumer})"
  | zeroSizedElement => "elements of a length-keyed collection take no bytes on the wire"
  | nonIntegralLengthField key => s!"length key `{key}` must be carried by an integral field"
  | recursiveType name => s!"type `{name}` contains itself"
  | unknownType name => s!"unknown type `{name}`"

end LayoutFault

/-- A fault of a layout and where it lies. -/
structure LayoutError where
  /-- The record type that the fault was found in. -/
  typeName : String
  /-- The field at fault, if one is. -/
  field : Option String
  fault : LayoutFault
deriving DecidableEq, Repr

namespace LayoutError

/-- The type, and the field where there is one. -/
def location (error : LayoutError) : String :=
  match error.field with
  | some field => s!"{error.typeName}.{field}"
  | none => error.typeName

/-- The error in words. -/
def message (error : LayoutError) : String :=
  s!"invalid layout at `{error.location}`: {error.fault.message}"

end LayoutError

/-- A failure while a field is looked at: a fault of that field, or the error of a record in it,
which says where it lies. -/
inductive LayoutFailure where
  | ofField (fault : LayoutFault)
  | ofRecord (error : LayoutError)
deriving DecidableEq, Repr

/-- The error at a field, unless the failure says where it lies. -/
def LayoutFailure.locate (typeName field : String) : LayoutFailure → LayoutError
  | ofField fault => ⟨typeName, some field, fault⟩
  | ofRecord error => error

/-- What is wrong with a value or with bytes that are to become one. -/
inductive DataError where
  | valueMismatch (expected : String) (found : String)
  | missingField (name : String)
  | tooManyElements (length : Nat) (max : Nat)
  | tooManyBytes (length : Nat) (max : Nat)
  /-- A text is shorter than its slot, and zeros after it would not mark its end. -/
  | unpaddableText (length : Nat) (fixed : Nat) (encoding : Encoding)
  /-- A list is shorter than its slots, and nothing is there to fill them. -/
  | noDefault (missing : Nat)
  | interiorNul
  | unencodable (encoding : Encoding)
  | invalidText (encoding : Encoding)
  | outOfRange (value : Int) (repr : ScalarKind)
  | bitOverflow (value : Nat) (bits : Nat)
  | invalidContainerWidth (width : Nat)
  | containerOverflow (bits : Nat) (width : Nat)
  | containerSwapMismatch
  | unrepresentableChar (char : Char)
  | invalidCodeUnit (unit : Nat)
  | missingLength (key : String)
  | invalidLength (length : Int)
  | lengthExceedsFixed (length : Nat) (max : Nat)
  | sizeContract (actual : Nat) (contract : SizeContract)
  | bufferTooShort (need : Nat) (available : Nat)
  /-- An error of a custom codec, in its own words. -/
  | custom (text : String)
deriving DecidableEq, Repr

namespace DataError

/-- The error in words. -/
def message : DataError → String
  | valueMismatch expected found => s!"expected {expected} value, found {found}"
  | missingField name => s!"missing field `{name}`"
  | tooManyElements length max => s!"{length} elements exceed the fixed length of {max}"
  | tooManyBytes length max => s!"{length} encoded bytes exceed the fixed length of {max}"
  | unpaddableText length fixed encoding =>
    s!"{length} encoded bytes cannot be padded to {fixed} in {encoding.name}"
  | noDefault missing => s!"element type has no default to fill {missing} padding slots"
  | interiorNul => "null-terminated string contains a NUL character"
  | unencodable encoding => s!"text cannot be encoded as {encoding.name}"
  | invalidText encoding => s!"bytes are not valid {encoding.name}"
  | outOfRange value repr => s!"value {value} does not fit {repr.name}"
  | bitOverflow value bits => s!"value 0x{Hex.ofNumber 1 value} does not fit in {bits} bits"
  | invalidContainerWidth width => s!"bit container width must be 1 to 8 bytes, got {width}"
  | containerOverflow bits width => s!"{bits} bits do not fit a {width}-byte container"
  | containerSwapMismatch => "bitfield byte order differs from the active container"
  | unrepresentableChar char => s!"char {Quoted.ofChar char} is not a single UTF-16 code unit"
  | invalidCodeUnit unit => s!"code unit 0x{Hex.ofNumber 4 unit} is not a valid char"
  | missingLength key => s!"no decoded length for key `{key}`"
  | invalidLength length => s!"invalid length value {length}"
  | lengthExceedsFixed length max => s!"decoded length {length} exceeds the fixed length of {max}"
  | sizeContract actual contract =>
    s!"custom codec moved {actual} bytes, contract requires {contract.describe}"
  | bufferTooShort need available =>
    s!"buffer of {available} bytes is shorter than the minimum size of {need}"
  | custom text => text

end DataError

/-- Why a sink or a source could not go on. -/
inductive IoFailure where
  /-- The source has fewer bytes left than were asked for. -/
  | unexpectedEof
  /-- The sink has no room left. -/
  | writeZero
deriving DecidableEq, Repr

namespace IoFailure

/-- The failure in words. -/
def message : IoFailure → String
  | unexpectedEof => "unexpected end of the source"
  | writeZero => "no room left in the sink"

end IoFailure

/-- Any error of this library. -/
inductive Error where
  | layout (error : LayoutError)
  /-- An error at a field, with the path of the field. -/
  | located (path : Path) (cause : Error)
  | data (error : DataError)
  | io (failure : IoFailure)
deriving DecidableEq, Repr

namespace Error

instance : Coe DataError Error := ⟨data⟩

instance : Coe IoFailure Error := ⟨io⟩

/-- Says where an error arose, unless it says so itself. -/
def locate (path : Path) : Error → Error
  | located inner cause => located inner cause
  | error => located path error

/-- The path of the field at fault, if the error has one. -/
def path? : Error → Option Path
  | located path _ => some path
  | _ => none

/-- The error under all paths. -/
def rootCause : Error → Error
  | located _ cause => cause.rootCause
  | error => error

/-- Whether the source ended before the layout was satisfied. -/
def isEndOfStream (error : Error) : Bool := error.rootCause == io .unexpectedEof

/-- The fault of the data under all paths, if that is what it is. -/
def data? (error : Error) : Option DataError :=
  match error.rootCause with
  | data error => some error
  | _ => none

/-- The error in words. -/
def message : Error → String
  | layout error => error.message
  | located path cause => s!"failed to translate `{path.render}`: {cause.message}"
  | data error => error.message
  | io failure => s!"i/o error: {failure.message}"

end Error

end WireFormat
