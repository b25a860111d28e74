import WireFormat.Hex
import WireFormat.Json
import WireFormat.Value

/-!
# Values in JSON

A value is an object with one member, whose name says what the value is.  Integers that need 64 bits
and numbers of enums are written as decimal texts, floats and decimals as the hexadecimal digits of
their bit patterns, characters as their scalar values.

`Value.ofJson?` also reads two short forms: `repeat`, a value and how many copies of it a list
holds, and `str_repeat`, a text and how often to repeat it.
-/

namespace WireFormat

namespace Json

/-- An object with one member. -/
def ofMember (name : String) (value : Json) : Json := object [(name, value)]

/-- A natural number. -/
def ofNat (value : Nat) : Json := integer value

/-- An integer as a decimal text. -/
def ofDecimal (value : Int) : Json := string (toString value)

/-- An integer, as a number or as a decimal text. -/
def integer? : Json → Option Int
  | integer value => some value
  | string text => text.toInt?
  | _ => none

/-- A natural number, as a number or as a decimal text. -/
def natural? (json : Json) : Option Nat := json.integer?.bind Int.toNat?

/-- The number whose hexadecimal digits a text gives. -/
def hexNumber? (json : Json) : Option Nat := json.string?.bind Hex.number?

end Json

namespace Value

/-- An integer of a kind in JSON. -/
def integerJson (kind : IntegerKind) (number : Int) : Json :=
  if kind.width = 8 then .ofDecimal number else .integer number

mutual

/-- A value in JSON. -/
def toJson : Value → Json
  | bool flag => .ofMember "bool" (.bool flag)
  | integer kind pattern => .ofMember kind.label (integerJson kind (kind.read pattern))
  | f32 number => .ofMember "f32" (.string (Hex.ofNumber 8 number.pattern.toNat))
  | f64 number => .ofMember "f64" (.string (Hex.ofNumber 16 number.pattern.toNat))
  | decimal number => .ofMember "decimal" (.string (Hex.ofNumber 32 number.pattern.toNat))
  | char scalar => .ofMember "char" (.ofNat scalar.toNat)
  | enum number => .ofMember "enum" (.ofDecimal number)
  | text content => .ofMember "str" (.string content)
  | list items => .ofMember "list" (.array (itemsJson items))
  | record members => .ofMember "struct" (.object (membersJson members))

/-- The items of a list in JSON. -/
def itemsJson : List Value → List Json
  | [] => []
  | item :: rest => item.toJson :: itemsJson rest

/-- The members of a record in JSON. -/
def membersJson : List (String × Value) → List (String × Json)
  | [] => []
  | (name, value) :: rest => (name, value.toJson) :: membersJson rest

end

/-- A value that is neither a list nor a record from JSON, by what it is. -/
def ofScalarJson? (form : String) (content : Json) : Option Value :=
  match form with
  | "bool" => content.bool?.map bool
  | "f32" => content.hexNumber?.map fun bits ↦ f32 ⟨BitVec.ofNat 32 bits⟩
  | "f64" => content.hexNumber?.map fun bits ↦ f64 ⟨BitVec.ofNat 64 bits⟩
  | "decimal" => content.hexNumber?.map fun bits ↦ decimal ⟨BitVec.ofNat 128 bits⟩
  | "char" => content.natural?.map fun scalar ↦ char (Char.ofNat scalar)
  | "enum" => content.integer?.map enum
  | "str" => content.string?.map text
  | "str_repeat" =>
    match content with
    | .array [.string part, count] =>
      count.natural?.map fun count ↦ text (String.join (List.replicate count part))
    | _ => none
  | _ => do
    let kind ← ScalarKind.all.find? fun kind ↦ kind.isIntegral && kind.label == form
    ofInteger? kind (← content.integer?)

mutual

/-- A value from JSON. -/
def ofJson? : Json → Option Value
  | .object [("list", .array items)] => (itemsOfJson? items).map list
  | .object [("repeat", .array [item, count])] => do
    let value ← ofJson? item
    return list (List.replicate (← count.natural?) value)
  | .object [("struct", .object members)] => (membersOfJson? members).map ofMembers
  | .object [(form, content)] => ofScalarJson? form content
  | _ => none

/-- The items of a list from JSON. -/
def itemsOfJson? : List Json → Option (List Value)
  | [] => some []
  | item :: rest => do
    let value ← ofJson? item
    return value :: (← itemsOfJson? rest)

/-- The members of a record from JSON. -/
def membersOfJson? : List (String × Json) → Option (List (String × Value))
  | [] => some []
  | (name, json) :: rest => do
    let value ← ofJson? json
    return (name, value) :: (← membersOfJson? rest)

end

end Value

end WireFormat
