import WireFormat.Container.Basic

/-!
# Runs of bit fields

A run is a sequence of bit fields with nothing between them.  The first field of a run decides the
width and the byte order of its containers.  `Runs` follows the runs of a record as its fields are
declared, without any values: it says which container each field lies in and how many bytes all
containers take.
-/

namespace WireFormat

/-- The run that bit fields are being added to. -/
structure Run where
  /-- The width of the containers in bytes. -/
  width : Nat
  /-- The bits that are taken in the last container. -/
  bits : Nat
  /-- Whether the containers have their highest byte first. -/
  swap : Bool
deriving DecidableEq, Repr

/-- The runs seen so far. -/
structure Runs where
  /-- The run that has not ended yet. -/
  active : Option Run := none
  /-- The number of bytes of all containers. -/
  bytes : Nat := 0
deriving DecidableEq, Repr

namespace Runs

/-- Ends the run. -/
def close (runs : Runs) : Runs := { runs with active := none }

/-- The run that a field of `width` bytes is added to: the one that has not ended yet, or a new
one, and the bytes of all containers with the first one of a new run. -/
def enter (runs : Runs) (width : Nat) (order : ByteOrder) : Run × Nat :=
  match runs.active with
  | some run => (run, runs.bytes)
  | none => (⟨width, 0, order.reverses width⟩, runs.bytes + width)

/-- Adds a field of `bits` bits whose integer kind takes `width` bytes.  The answer is the width of
the containers of its run. -/
def add (runs : Runs) (width bits : Nat) (order : ByteOrder) : Except LayoutFault (Nat × Runs) :=
  let (run, bytes) := runs.enter width order
  if 8 * run.width < bits then
    .error (.bitfieldExceedsContainer bits run.width)
  else if order.reverses run.width ≠ run.swap then
    .error .mixedContainerOrder
  else if 8 * run.width < run.bits + bits then
    .ok (run.width, ⟨some { run with bits := bits }, bytes + run.width⟩)
  else
    .ok (run.width, ⟨some { run with bits := run.bits + bits }, bytes⟩)

end Runs

end WireFormat
