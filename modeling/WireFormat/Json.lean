import WireFormat.Word

/-!
# JSON values

The tree of a JSON text, with numbers that are written as integers told apart from all others.
-/

namespace WireFormat

/-- A JSON value. -/
inductive Json where
  | null
  | bool (value : Bool)
  /-- A number written without a fraction and without an exponent. -/
  | integer (value : Int)
  /-- Any other number, as it is written. -/
  | real (literal : String)
  | string (value : String)
  | array (elements : List Json)
  | object (members : List (String × Json))
deriving Repr, Inhabited

namespace Json

/-- The truth value that a JSON value is. -/
def bool? : Json → Option Bool
  | bool value => some value
  | _ => none

/-- The text that a JSON value is. -/
def string? : Json → Option String
  | string value => some value
  | _ => none

/-- The elements of an array. -/
def array? : Json → Option (List Json)
  | array elements => some elements
  | _ => none

/-- A natural number below `2 ^ 32`. -/
def uint32? : Json → Option UInt32
  | integer value =>
    if 0 ≤ value ∧ value < 2 ^ (32 : Nat) then some (UInt32.ofNat value.toNat) else none
  | _ => none

/-- A natural number below `2 ^ 64`. -/
def uint64? : Json → Option UInt64
  | integer value =>
    if 0 ≤ value ∧ value < 2 ^ (64 : Nat) then some (UInt64.ofNat value.toNat) else none
  | _ => none

/-- An integer that 64 bits represent. -/
def int64? : Json → Option Int64
  | integer value =>
    if -(2 ^ (63 : Nat)) ≤ value ∧ value < 2 ^ (63 : Nat) then some (Int64.ofInt value) else none
  | _ => none

/-- One of several names: the name itself, or an object with the name as its only member, which is
null. -/
def name? : Json → Option String
  | string value => some value
  | object [(name, null)] => some name
  | _ => none

/-- The members of something that has the given members: those of an object, or the elements of an
array in their order, the last of which may be missing. -/
def fields? (names : List String) : Json → Option (List (String × Json))
  | object members => some members
  | array elements =>
    if elements.length ≤ names.length then some (names.zip elements) else none
  | _ => none

/-- A member that must be there. -/
def required {α : Type} (read : Json → Option α) (name : String)
    (members : List (String × Json)) : Option α :=
  (members.lookup name).bind read

/-- A member that may be missing or null. -/
def optional {α : Type} (read : Json → Option α) (name : String)
    (members : List (String × Json)) : Option (Option α) :=
  match members.lookup name with
  | none | some null => some none
  | some value => (read value).map some

/-- A member that may be missing, but not null. -/
def defaulted {α : Type} (default : α) (read : Json → Option α) (name : String)
    (members : List (String × Json)) : Option α :=
  match members.lookup name with
  | none => some default
  | some value => read value

/-- What an optional member is written as. -/
def ofOption {α : Type} (write : α → Json) : Option α → Json
  | none => null
  | some value => write value

end Json

end WireFormat
