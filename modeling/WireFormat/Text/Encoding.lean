import WireFormat.Scalar

/-!
# Text encodings

The encodings of text fields.  Only the two whose code units are single bytes, and whose texts hold
a zero byte only where they hold NUL, can mark the end of a text by a zero byte.
-/

namespace WireFormat

/-- The encoding of a text. -/
inductive Encoding where
  /-- One byte per character, seven bits each. -/
  | ascii
  | utf8
  | utf16 (order : ByteOrder)
  | utf32 (order : ByteOrder)
deriving DecidableEq, Repr, Inhabited

namespace Encoding

/-- Whether a zero byte marks the end of a text beyond doubt. -/
def isNullTerminable : Encoding → Bool
  | ascii | utf8 => true
  | utf16 _ | utf32 _ => false

/-- The name of the encoding in messages. -/
def name : Encoding → String
  | ascii => "Ascii"
  | utf8 => "Utf8"
  | utf16 .little => "Utf16Le"
  | utf16 .big => "Utf16Be"
  | utf32 .little => "Utf32Le"
  | utf32 .big => "Utf32Be"

/-- The encodings, all of them. -/
def all : List Encoding :=
  [ascii, utf8, utf16 .little, utf16 .big, utf32 .little, utf32 .big]

/-- The encoding with a name. -/
def ofName? (name : String) : Option Encoding := all.find? fun encoding ↦ encoding.name == name

end Encoding

end WireFormat
