/-!
# UTF-16 code units

A character above `0xFFFF` takes two code units, a high and a low surrogate; every other character
takes one.  `Unicode.ofUnits?` reads code units back and refuses a surrogate that stands alone.
-/

namespace WireFormat.Unicode

/-- The character with a scalar value, if there is one. -/
def ofScalar? (value : Nat) : Option Char :=
  if value.isValidChar then some (Char.ofNat value) else none

/-- The number of code units of a character. -/
def unitCount (char : Char) : Nat := if char.toNat < 0x10000 then 1 else 2

/-- The code units of a character. -/
def units (char : Char) : List Nat :=
  if char.toNat < 0x10000 then
    [char.toNat]
  else
    let offset := char.toNat - 0x10000
    [0xD800 + offset / 0x400, 0xDC00 + offset % 0x400]

/-- Whether a code unit is the first of two. -/
def isHighSurrogate (unit : Nat) : Bool := decide (0xD800 ≤ unit) && decide (unit < 0xDC00)

/-- Whether a code unit is the second of two. -/
def isLowSurrogate (unit : Nat) : Bool := decide (0xDC00 ≤ unit) && decide (unit < 0xE000)

/-- The characters that some code units stand for. -/
def ofUnits? : List Nat → Option (List Char)
  | [] => some []
  | unit :: rest =>
    if isHighSurrogate unit then
      match rest with
      | low :: rest =>
        if isLowSurrogate low then do
          let char ← ofScalar? (0x10000 + (unit - 0xD800) * 0x400 + (low - 0xDC00))
          return char :: (← ofUnits? rest)
        else
          none
      | [] => none
    else do
      let char ← ofScalar? unit
      return char :: (← ofUnits? rest)

theorem length_units (char : Char) : (units char).length = unitCount char := by
  unfold units unitCount
  split <;> rfl

end WireFormat.Unicode
