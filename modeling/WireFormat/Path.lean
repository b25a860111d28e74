/-!
# Paths

The place of a field in a value: the members and list positions that lead to it from the root.
`Path.render` writes it, for instance as `header.items[2].name`.
-/

namespace WireFormat

/-- One step of a path. -/
inductive Segment where
  /-- The member of a record. -/
  | member (name : String)
  /-- The element of a list, counted from zero. -/
  | index (position : Nat)
deriving DecidableEq, Repr

/-- The steps from the root, outermost first. -/
abbrev Path := List Segment

namespace Path

/-- Writes one more step after the text of the steps before it.  A point stands before a member
unless nothing has been written yet. -/
def append (text : String) : Segment → String
  | .member name => if text.isEmpty then name else text ++ "." ++ name
  | .index position => text ++ "[" ++ toString position ++ "]"

/-- The text of a path. -/
def render (path : Path) : String := path.foldl append ""

end Path

end WireFormat
