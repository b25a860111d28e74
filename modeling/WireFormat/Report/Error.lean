import WireFormat.Error
import WireFormat.Json

/-!
# Errors in JSON

An error is an object that says which family it belongs to and, for programs and for people, which
error of the family it is.
-/

namespace WireFormat

/-- The name of a fault, for programs. -/
def LayoutFault.name : LayoutFault → String
  | missingTag _ _ => "MissingAnnotation"
  | tagMismatch _ _ => "AnnotationMismatch"
  | nonIntegralEquivalent _ => "NonIntegralEquivalent"
  | enumOutOfRange _ _ _ => "EnumOutOfRange"
  | missingSizePolicy => "MissingSizePolicy"
  | conflictingSizePolicy => "ConflictingSizePolicy"
  | nullTerminationUnsupported _ => "NullTerminationUnsupported"
  | zeroFixedLength => "ZeroFixedLength"
  | invalidBitfield _ => "InvalidBitfield"
  | bitWidthTooWide _ _ => "BitWidthTooWide"
  | bitfieldExceedsContainer _ _ => "BitfieldExceedsContainer"
  | mixedContainerOrder => "MixedContainerEndianness"
  | duplicateName => "DuplicateName"
  | duplicateOrder _ => "DuplicateOrder"
  | duplicateLengthField _ => "DuplicateLengthField"
  | duplicateLengthConsumer _ => "DuplicateLengthConsumer"
  | unresolvedLengthKey _ => "UnresolvedLengthKey"
  | ambiguousLengthKey _ => "AmbiguousLengthKey"
  | unusedLengthField _ => "UnusedLengthField"
  | lengthKeyInRepeatedElement _ => "LengthKeyInRepeatedElement"
  | lengthOrder _ _ _ => "LengthOrder"
  | zeroSizedElement => "ZeroSizedElement"
  | nonIntegralLengthField _ => "NonIntegralLengthField"
  | recursiveType _ => "RecursiveType"
  | unknownType _ => "UnknownType"

/-- The name of an error, for programs. -/
def DataError.name : DataError → String
  | valueMismatch _ _ => "ValueMismatch"
  | missingField _ => "MissingField"
  | tooManyElements _ _ => "TooManyElements"
  | tooManyBytes _ _ => "TooManyBytes"
  | unpaddableText _ _ _ => "UnpaddableString"
  | noDefault _ => "NoDefault"
  | interiorNul => "InteriorNul"
  | unencodable _ => "Unencodable"
  | invalidText _ => "InvalidText"
  | outOfRange _ _ => "OutOfRange"
  | bitOverflow _ _ => "BitOverflow"
  | invalidContainerWidth _ => "InvalidContainerWidth"
  | containerOverflow _ _ => "ContainerOverflow"
  | containerSwapMismatch => "ContainerSwapMismatch"
  | unrepresentableChar _ => "UnrepresentableChar"
  | invalidCodeUnit _ => "InvalidCodeUnit"
  | missingLength _ => "MissingLength"
  | invalidLength _ => "InvalidLength"
  | lengthExceedsFixed _ _ => "LengthExceedsFixed"
  | sizeContract _ _ => "SizeContract"
  | bufferTooShort _ _ => "BufferTooShort"
  | custom _ => "Custom"

/-- The name of a failure, for programs. -/
def IoFailure.name : IoFailure → String
  | unexpectedEof => "UnexpectedEof"
  | writeZero => "WriteZero"

/-- An error of a layout in JSON. -/
def LayoutError.toJson (error : LayoutError) : Json :=
  .object [
    ("error", .string "Layout"),
    ("type", .string error.typeName),
    ("field", .ofOption .string error.field),
    ("kind", .string error.fault.name),
    ("message", .string error.message)]

/-- An error of the data in JSON. -/
def DataError.toJson (error : DataError) : Json :=
  .object [
    ("error", .string "Data"),
    ("kind", .string error.name),
    ("message", .string error.message)]

/-- The message of an error in JSON.  Failures of sinks and sources have no words of their own. -/
def Error.messageMembers (error : Error) : List (String × Json) :=
  match error.rootCause with
  | .io _ => []
  | _ => [("message", .string error.message)]

/-- An error in JSON. -/
def Error.toJson : Error → Json
  | .layout error => error.toJson
  | .data error => error.toJson
  | .io failure => .object [("error", .string "Io"), ("kind", .string failure.name)]
  | .located path cause =>
    .object ([
      ("error", .string "Translation"),
      ("path", .string path.render),
      ("cause", cause.toJson),
      ("eof", .bool cause.isEndOfStream),
      ("data", .ofOption (fun error ↦ .string error.message) cause.data?)] ++
      (Error.located path cause).messageMembers)

end WireFormat
