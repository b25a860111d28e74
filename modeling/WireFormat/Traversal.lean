import WireFormat.Value

/-!
# Traversals

While a value is written or read, a traversal keeps the records around the field at hand, innermost
first, each with its type name, its subject and the lengths read in it, and the path to the field.
`Traversal.findSubject?` looks a record up by its type name, `Traversal.length?` a length by the
number of records between.
-/

namespace WireFormat

/-- A record on the way to the field at hand. -/
structure Frame (α : Type) where
  /-- The name of the record type. -/
  typeName : String
  /-- What is known about the record. -/
  subject : α
  /-- The lengths read in this record by their keys, the latest first. -/
  lengths : List (String × Int) := []

/-- The records around the field at hand and the path to it, both innermost first. -/
structure Traversal (α : Type) where
  frames : List (Frame α) := []
  steps : List Segment := []

namespace Traversal

variable {α : Type}

/-- Enters a record. -/
def push (traversal : Traversal α) (typeName : String) (subject : α) : Traversal α :=
  { traversal with frames := ⟨typeName, subject, []⟩ :: traversal.frames }

/-- Leaves the innermost record. -/
def pop (traversal : Traversal α) : Traversal α :=
  { traversal with frames := traversal.frames.tail }

/-- The number of records around the field at hand. -/
def depth (traversal : Traversal α) : Nat := traversal.frames.length

/-- The subject of the innermost record. -/
def subject? (traversal : Traversal α) : Option α := traversal.frames.head?.map Frame.subject

/-- Changes the innermost record, if there is one. -/
def modifyFrame (traversal : Traversal α) (f : Frame α → Frame α) : Traversal α :=
  { traversal with frames := traversal.frames.modifyHead f }

/-- Changes the subject of the innermost record. -/
def modifySubject (traversal : Traversal α) (f : α → α) : Traversal α :=
  traversal.modifyFrame fun frame ↦ { frame with subject := f frame.subject }

/-- The subject of the innermost record with a type name. -/
def findSubject? (traversal : Traversal α) (typeName : String) : Option α :=
  (traversal.frames.find? fun frame ↦ frame.typeName == typeName).map Frame.subject

/-- Goes on to a member of the innermost record. -/
def enter (traversal : Traversal α) (name : String) : Traversal α :=
  { traversal with steps := .member name :: traversal.steps }

/-- Goes on to an element of the list at hand. -/
def enterIndex (traversal : Traversal α) (position : Nat) : Traversal α :=
  { traversal with steps := .index position :: traversal.steps }

/-- Takes the last step back. -/
def leave (traversal : Traversal α) : Traversal α :=
  { traversal with steps := traversal.steps.tail }

/-- The path from the root to the field at hand. -/
def path (traversal : Traversal α) : Path := traversal.steps.reverse

/-- The path that has other members in place of its last step. -/
def siblingPath (traversal : Traversal α) (members : List String) : Path :=
  traversal.steps.tail.reverse ++ members.map .member

/-- Keeps a length that was read in the innermost record. -/
def record (traversal : Traversal α) (key : String) (length : Int) : Traversal α :=
  traversal.modifyFrame fun frame ↦ { frame with lengths := (key, length) :: frame.lengths }

/-- The latest length of a key in the record that has `up` records inside it. -/
def length? (traversal : Traversal α) (up : Nat) (key : String) : Option Int :=
  traversal.frames[up]?.bind fun frame ↦ frame.lengths.lookup key

end Traversal

end WireFormat
