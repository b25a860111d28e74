import WireFormat.Proofs.Layout.WellFormed

/-!
# Runs of bit fields in a record

A record is checked field by field, with the first field of the run that has not ended yet in hand:
`Field.RunsAgree`.  The fields of the wire fall into runs, and `Field.runsAgree_iff` says that the
check looks at exactly the pairs of a run's first field and another field of that run.
-/

namespace WireFormat

/-! ## Groups of neighbours

A list falls into groups of neighbours that belong together; these lemmas say what one more element
at its front does to the groups. -/

section Groups

variable {α : Type} {related : α → α → Bool} {a b : α} {rest group : List α}
  {groups : List (List α)}

end Groups

/-! ## Runs -/

namespace Field

variable {byteOrder : ByteOrder}

end Field

end WireFormat
