import WireFormat.Error
import WireFormat.Number
import WireFormat.Word

/-!
# Values

The values that a layout writes and reads.  An integer is kept as the bit pattern of its kind, so it
is always in range.  The members of a record are sorted by name, each name once, so that two records
with the same members are the same value; `Members.insert` keeps them so.

* `Value.toRaw` and `Value.ofRaw` — a scalar as the number that its bytes stand for, and back.
* `Value.ofInteger?` and `Value.toInteger?` — integers as values, and back.
-/

namespace WireFormat

/-- A value of any shape. -/
inductive Value where
  | bool (value : Bool)
  | integer (kind : IntegerKind) (pattern : BitVec kind.bits)
  | f32 (number : Binary32)
  | f64 (number : Binary64)
  | decimal (number : Decimal)
  | char (char : Char)
  /-- A member of an enum by its number, which need not be a declared one. -/
  | enum (number : Int)
  | text (text : String)
  | list (items : List Value)
  /-- A record, by its members in the order of their names. -/
  | record (members : List (String × Value))
deriving Repr, Inhabited

/-- The members of a record, sorted by name. -/
abbrev Members := List (String × Value)

namespace Members

/-- The value of a member. -/
def find? (name : String) : Members → Option Value
  | [] => none
  | (key, value) :: rest => if name = key then some value else find? name rest

/-- Sets a member, in the place that its name has in the order. -/
def insert (name : String) (value : Value) : Members → Members
  | [] => [(name, value)]
  | (key, old) :: rest =>
    if name = key then
      (name, value) :: rest
    else if name < key then
      (name, value) :: (key, old) :: rest
    else
      (key, old) :: insert name value rest

/-- Drops a member. -/
def erase (name : String) (members : Members) : Members :=
  members.filter fun member ↦ member.1 ≠ name

/-- The members of a list of pairs; of two with one name the later counts. -/
def ofList (pairs : List (String × Value)) : Members :=
  pairs.foldl (fun members pair ↦ insert pair.1 pair.2 members) []

/-- The names of the members, in order. -/
def names (members : Members) : List String := members.map Prod.fst

theorem find?_insert_self (name : String) (value : Value) (members : Members) :
    find? name (insert name value members) = some value := by
  induction members with
  | nil => simp [insert, find?]
  | cons member rest ih =>
    rw [insert]
    split
    · simp [find?]
    · split
      · simp [find?]
      · next hne _ => rw [find?, if_neg hne, ih]

theorem find?_insert_of_ne {name other : String} (hne : other ≠ name) (value : Value)
    (members : Members) : find? other (insert name value members) = find? other members := by
  induction members with
  | nil => simp [insert, find?, hne]
  | cons member rest ih =>
    rw [insert]
    split
    · next heq => simp [find?, hne, ← heq]
    · split
      · simp [find?, hne]
      · simp [find?, ih]

end Members

namespace Value

/-- What a value is, in messages. -/
def label : Value → String
  | bool _ => "bool"
  | integer kind _ => kind.label
  | f32 _ => "f32"
  | f64 _ => "f64"
  | decimal _ => "decimal"
  | char _ => "char"
  | enum _ => "enum"
  | text _ => "string"
  | list _ => "list"
  | record _ => "struct"

/-- The error of a value that is not of the kind that was asked for. -/
def mismatch (expected : String) (found : Value) : DataError := .valueMismatch expected found.label

/-- The zero of a scalar kind. -/
def zero : ScalarKind → Value
  | .bool => bool false
  | .integer kind => integer kind 0
  | .f32 => f32 ⟨0⟩
  | .f64 => f64 ⟨0⟩
  | .decimal => decimal ⟨0⟩
  | .char => char '\x00'

/-- An integer as a value of a kind, if the kind represents it. -/
def ofInteger? : ScalarKind → Int → Option Value
  | .integer kind, number =>
    if kind.Fits number then some (integer kind (BitVec.ofInt kind.bits number)) else none
  | _, _ => none

/-- The number of an integer or of a member of an enum. -/
def toInteger? : Value → Option Int
  | integer kind pattern => some (kind.read pattern)
  | enum number => some number
  | _ => none

/-- The truth value that a value is. -/
def toBool? : Value → Option Bool
  | bool value => some value
  | _ => none

/-- The text that a value is. -/
def toText? : Value → Option String
  | text value => some value
  | _ => none

/-- The items of a list. -/
def toItems? : Value → Option (List Value)
  | list items => some items
  | _ => none

/-- The members of a record. -/
def toMembers? : Value → Option Members
  | record members => some members
  | _ => none

/-- A member of a record. -/
def member? (name : String) (value : Value) : Option Value :=
  value.toMembers?.bind (Members.find? name)

/-- The members of a record, or the error of a value that is none. -/
def members (value : Value) : Except DataError Members :=
  match value with
  | record members => .ok members
  | other => .error (other.mismatch "struct")

/-- The record with the given members. -/
def ofMembers (pairs : List (String × Value)) : Value := record (Members.ofList pairs)

/-- The number that the bytes of a scalar stand for.  The value has to be of the kind itself. -/
def toRaw (kind : ScalarKind) (value : Value) : Except DataError Nat :=
  match kind, value with
  | .bool, bool value => .ok value.toNat
  | .integer kind, integer found pattern =>
    if found = kind then .ok pattern.toNat
    else .error (value.mismatch kind.label)
  | .f32, f32 number => .ok number.pattern.toNat
  | .f64, f64 number => .ok number.pattern.toNat
  | .decimal, decimal number => .ok number.pattern.toNat
  | .char, char value =>
    if value.toNat < 0x10000 then .ok value.toNat else .error (.unrepresentableChar value)
  | kind, other => .error (other.mismatch kind.label)

/-- The integer that the bits of a kind stand for: two's complement in a signed kind. -/
def integerOfRaw (kind : ScalarKind) (raw : Nat) : Int :=
  if kind.isSigned then (raw : Int).bmod (2 ^ kind.bits) else (raw % 2 ^ kind.bits : Nat)

/-- The scalar that a number stands for; bits beyond the kind are dropped. -/
def ofRaw (kind : ScalarKind) (raw : Nat) : Except DataError Value :=
  match kind with
  | .bool => .ok (bool (raw != 0))
  | .integer kind =>
    let number := integerOfRaw (.integer kind) raw
    match ofInteger? (.integer kind) number with
    | some value => .ok value
    | none => .error (.outOfRange number (.integer kind))
  | .f32 => .ok (f32 ⟨BitVec.ofNat 32 raw⟩)
  | .f64 => .ok (f64 ⟨BitVec.ofNat 64 raw⟩)
  | .decimal => .ok (decimal ⟨BitVec.ofNat 128 raw⟩)
  | .char =>
    let unit := raw % 0x10000
    if unit.isValidChar then .ok (char (Char.ofNat unit)) else .error (.invalidCodeUnit unit)

/-- The two's complement of an integer in the bits of a kind that represents it. -/
def integerToRaw (kind : ScalarKind) (number : Int) : Except DataError Nat :=
  if kind.Fits number then .ok (number % 2 ^ kind.bits).toNat else .error (.outOfRange number kind)

end Value

end WireFormat
