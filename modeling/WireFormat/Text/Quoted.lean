import WireFormat.Hex
import WireFormat.Text.GraphemeBase

/-!
# Characters in messages

A character that takes two UTF-16 code units stands in single quotes in a message.  One that is no
base character is written by the hexadecimal digits of its scalar value.
-/

namespace WireFormat.Quoted

/-- A character above `U+FFFF` in quotes. -/
def ofChar (char : Char) : String :=
  if GraphemeBase.contains char.toNat then
    "'" ++ char.toString ++ "'"
  else
    "'\\u\x7b" ++ Hex.ofNumber 1 char.toNat ++ "\x7d'"

end WireFormat.Quoted
