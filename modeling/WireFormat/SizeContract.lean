/-!
# Size contracts

The number of bytes that a custom codec promises to move for each value.
-/

namespace WireFormat

/-- A promise about a number of bytes. -/
inductive SizeContract where
  | exactly (size : Nat)
  | atLeast (size : Nat)
deriving DecidableEq, Repr

namespace SizeContract

/-- The numbers of bytes that keep the promise. -/
def Admits : SizeContract → Nat → Prop
  | exactly size, actual => actual = size
  | atLeast size, actual => size ≤ actual

instance : (contract : SizeContract) → (actual : Nat) → Decidable (contract.Admits actual)
  | exactly size, actual => inferInstanceAs (Decidable (actual = size))
  | atLeast size, actual => inferInstanceAs (Decidable (size ≤ actual))

/-- The least number of bytes that keeps the promise. -/
def minSize : SizeContract → Nat
  | exactly size | atLeast size => size

/-- Whether the promise leaves one number only. -/
def isFixed : SizeContract → Bool
  | exactly _ => true
  | atLeast _ => false

/-- The contract in words. -/
def describe : SizeContract → String
  | exactly size => s!"exactly {size} bytes"
  | atLeast size => s!"at least {size} bytes"

end SizeContract

end WireFormat
