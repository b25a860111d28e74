/-!
# Hexadecimal digits

Numbers and bytes in lower-case hexadecimal digits, two digits for a byte, the high one first.
`Hex.bytes?` and `Hex.number?` read them back, in either case.
-/

namespace WireFormat.Hex

/-- The digit of a number below sixteen. -/
def digit (value : Nat) : Char :=
  if value < 10 then Char.ofNat ('0'.toNat + value) else Char.ofNat ('a'.toNat + (value - 10))

/-- The digits of a number, with zeros in front up to `width` digits. -/
def ofNumber (width value : Nat) : String :=
  String.ofList ((Nat.toDigits 16 value).leftpad width '0')

/-- The digits of some bytes. -/
def ofBytes (bytes : List UInt8) : String :=
  bytes.foldl
    (fun text byte ↦ (text.push (digit (byte.toNat / 16))).push (digit (byte.toNat % 16))) ""

/-- The number of a digit. -/
def digit? (char : Char) : Option Nat :=
  if '0' ≤ char ∧ char ≤ '9' then
    some (char.toNat - '0'.toNat)
  else if 'a' ≤ char ∧ char ≤ 'f' then
    some (char.toNat - 'a'.toNat + 10)
  else if 'A' ≤ char ∧ char ≤ 'F' then
    some (char.toNat - 'A'.toNat + 10)
  else
    none

/-- The number that a text gives the digits of. -/
def number? (text : String) : Option Nat :=
  text.toList.foldlM (fun value char ↦ (digit? char).map fun digit ↦ 16 * value + digit) 0

/-- The bytes that some characters give the digits of. -/
def pairs? : List Char → Option (List UInt8)
  | [] => some []
  | high :: low :: rest => do
    let high ← digit? high
    let low ← digit? low
    return UInt8.ofNat (16 * high + low) :: (← pairs? rest)
  | [_] => none

/-- The bytes that a text gives the digits of. -/
def bytes? (text : String) : Option (List UInt8) := pairs? text.toList

end WireFormat.Hex
