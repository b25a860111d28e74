import WireFormat.Error
import WireFormat.Text.Unicode
import WireFormat.Word

/-!
# Text as bytes

`Encoding.encode` writes a text as bytes, `Encoding.decode` reads all of some bytes as a text, and
`Encoding.encodedLength` counts the bytes of a text without writing them.  Encoding fails only for a
character that ASCII lacks.
-/

namespace WireFormat.Encoding

-- Sums of numbers are those of the core library, whatever else is imported.
attribute [local instance (high)] Zero.ofOfNat0

/-- Whether every character of a text is in ASCII. -/
def isAscii (text : String) : Bool := text.toList.all fun char ↦ decide (char.toNat < 128)

/-- The numbers that pairs of bytes stand for; `none` if a byte is left over. -/
def words16? (order : ByteOrder) : List UInt8 → Option (List Nat)
  | [] => some []
  | first :: second :: rest =>
    (words16? order rest).map (ofWireBytes [first, second] (order.reverses 2) :: ·)
  | [_] => none

/-- The numbers that groups of four bytes stand for; `none` if bytes are left over. -/
def words32? (order : ByteOrder) : List UInt8 → Option (List Nat)
  | [] => some []
  | first :: second :: third :: fourth :: rest =>
    (words32? order rest).map
      (ofWireBytes [first, second, third, fourth] (order.reverses 4) :: ·)
  | _ => none

/-- The bytes of a text. -/
def encode (encoding : Encoding) (text : String) : Except DataError (List UInt8) :=
  match encoding with
  | ascii =>
    if isAscii text then .ok text.toUTF8.data.toList else .error (.unencodable encoding)
  | utf8 => .ok text.toUTF8.data.toList
  | utf16 order =>
    .ok ((text.toList.flatMap Unicode.units).flatMap fun unit ↦
      wireBytes 2 unit (order.reverses 2))
  | utf32 order =>
    .ok (text.toList.flatMap fun char ↦ wireBytes 4 char.toNat (order.reverses 4))

/-- The number of bytes of a text. -/
def encodedLength (encoding : Encoding) (text : String) : Except DataError Nat :=
  match encoding with
  | ascii => if isAscii text then .ok text.utf8ByteSize else .error (.unencodable encoding)
  | utf8 => .ok text.utf8ByteSize
  | utf16 _ => .ok (2 * (text.toList.map Unicode.unitCount).sum)
  | utf32 _ => .ok (4 * text.length)

/-- The text that some bytes stand for, if they stand for one. -/
def decode? (encoding : Encoding) (bytes : List UInt8) : Option String :=
  match encoding with
  | ascii =>
    if bytes.all fun byte ↦ decide (byte < 128) then
      some (String.ofList (bytes.map fun byte ↦ Char.ofNat byte.toNat))
    else
      none
  | utf8 => String.fromUTF8? ⟨bytes.toArray⟩
  | utf16 order => do
    let units ← words16? order bytes
    return String.ofList (← Unicode.ofUnits? units)
  | utf32 order => do
    let values ← words32? order bytes
    return String.ofList (← values.mapM Unicode.ofScalar?)

/-- The text that some bytes stand for. -/
def decode (encoding : Encoding) (bytes : List UInt8) : Except DataError String :=
  match encoding.decode? bytes with
  | some text => .ok text
  | none => .error (.invalidText encoding)

end WireFormat.Encoding
