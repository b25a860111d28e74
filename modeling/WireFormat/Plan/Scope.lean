import WireFormat.Plan.Basic

/-!
# Length keys

While a descriptor becomes a plan, the records around the field at hand are kept as scopes,
innermost first.  Each lists the fields that carry lengths.  A list or text finds its length in the
scopes from the innermost outwards, up to the element of the innermost list around it: an element
can only use lengths that are declared in it.

`Scope.bind` matches a list or text with the field that carries its length; `Scope.close` refuses a
record with a length that nothing has taken.
-/

namespace WireFormat

/-- A field that carries a length. -/
structure Carrier where
  key : String
  /-- The name of the field. -/
  field : String
  order : Nat
  /-- What takes the length, once it is known. -/
  feed : Option LengthFeed := none
deriving DecidableEq, Repr

/-- A record around the field at hand, or the start of an element of a list. -/
inductive Scope where
  | element
  /-- A record type with its carriers and the name and order of the field at hand. -/
  | record (typeName : String) (carriers : List Carrier) (member : Option (String × Nat))
deriving DecidableEq, Repr

namespace Scope

/-- The scope of a record.  Only fields on the wire carry lengths. -/
def ofRecord (typeName : String) (fields : List FieldDescriptor) : Scope :=
  .record typeName
    (fields.filterMap fun field ↦
      if field.serialize then field.lengthOf.map fun key ↦ ⟨key, field.name, field.order, none⟩
      else none)
    none

/-- Whether the scope is a record. -/
def isRecord : Scope → Bool
  | element => false
  | record _ _ _ => true

/-- The fields that carry lengths. -/
def carriers : Scope → List Carrier
  | element => []
  | record _ carriers _ => carriers

/-- The name of the field at hand. -/
def memberName? : Scope → Option String
  | record _ _ (some (name, _)) => some name
  | _ => none

/-- The order of the field at hand. -/
def memberOrder? : Scope → Option Nat
  | record _ _ (some (_, order)) => some order
  | _ => none

/-- Goes on to a field of the innermost record. -/
def enterMember (name : String) (order : Nat) : List Scope → List Scope
  | .record typeName carriers _ :: rest => .record typeName carriers (some (name, order)) :: rest
  | scopes => scopes

/-- Gives the carriers of a key what takes their length. -/
def setFeed (key : String) (feed : LengthFeed) : Scope → Scope
  | element => element
  | record typeName carriers member =>
    record typeName
      (carriers.map fun carrier ↦
        if carrier.key = key then { carrier with feed := some feed } else carrier)
      member

/-- The carriers of a key, each with the number of scopes inside its own. -/
def candidates (key : String) (scopes : List Scope) : List (Nat × Carrier) :=
  scopes.zipIdx.flatMap fun (scope, up) ↦
    (scope.carriers.filter fun carrier ↦ carrier.key == key).map fun carrier ↦ (up, carrier)

/-- Matches the list or text at hand with the one field that carries the length of its key. -/
def bind (scopes : List Scope) (key : String) (measure : Measure) :
    Except LayoutFault (LengthSource × List Scope) := do
  let inside := scopes.takeWhile isRecord
  match candidates key inside with
  | [] =>
    if (candidates key scopes).isEmpty then
      throw (.unresolvedLengthKey key)
    else
      throw (.lengthKeyInRepeatedElement key)
  | [(up, carrier)] =>
    let consumerOrder ←
      match scopes[up]?.bind memberOrder? with
      | some order => pure order
      | none => throw (.unresolvedLengthKey key)
    if consumerOrder ≤ carrier.order then
      throw (.lengthOrder key carrier.order consumerOrder)
    if carrier.feed.isSome then
      throw (.duplicateLengthConsumer key)
    let path := (scopes.take (up + 1)).reverse.filterMap memberName?
    return (⟨key, up⟩, scopes.modify up (setFeed key ⟨path, measure⟩))
  | _ => throw (.ambiguousLengthKey key)

/-- The carriers of a record whose fields are all done; each must have what takes its length. -/
def close : Scope → Except LayoutError (List Carrier)
  | element => .ok []
  | record typeName carriers _ =>
    match carriers.find? fun carrier ↦ carrier.feed.isNone with
    | some carrier => .error ⟨typeName, some carrier.field, .unusedLengthField carrier.key⟩
    | none => .ok carriers

end Scope

end WireFormat
