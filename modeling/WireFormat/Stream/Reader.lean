import WireFormat.Container.Basic

/-!
# Reading

A `Reader` reads from a list of bytes, counts them and owns the bit container that is being taken
apart: everything but `Reader.unpack` first drops what is left of that container.

All operations run in `ReadM`, which keeps the reader as it is when an operation fails.  An
operation that finds too few bytes consumes all of them.
-/

namespace WireFormat

/-- Bytes that are being read, with the container that is being taken apart. -/
structure Reader where
  /-- The bytes not yet read. -/
  source : List UInt8
  /-- The number of bytes read. -/
  position : Nat := 0
  active : Option Container := none
deriving DecidableEq, Repr

/-- Operations of a reader.  A failing one leaves the reader as far as it got. -/
abbrev ReadM := EStateM Error Reader

namespace Reader

/-- Takes up to `count` bytes. -/
def receive (count : Nat) : ReadM (List UInt8)
  | ⟨source, position, active⟩ =>
    let bytes := source.take count
    .ok bytes ⟨source.drop count, position + bytes.length, active⟩

/-- Takes exactly `count` bytes. -/
def receiveAll (count : Nat) : ReadM (List UInt8) := do
  let bytes ← receive count
  if bytes.length < count then
    throw (.io .unexpectedEof)
  return bytes

/-- Drops what is left of the container. -/
def resetBits : ReadM Unit := modify fun reader ↦ { reader with active := none }

/-- Takes the next `bits` bits from a container of `width` bytes.  No bits at all drop the
container.  A new container is read if there is none, if the one there has another width and if it
holds too few bits; otherwise the field has to agree with it about the order of the bytes. -/
def unpack (width bits : Nat) (swap : Bool) : ReadM Nat := do
  match Container.check width bits with
  | .error error => throw (.data error)
  | .ok () => pure ()
  if bits = 0 then
    resetBits
    return 0
  match (← get).active.filter (·.holds width bits) with
  | some active =>
    if active.swap ≠ swap then
      throw (.data .containerSwapMismatch)
    let (value, active) := active.peel bits
    modify fun reader ↦ { reader with active := some active }
    return value
  | none =>
    let (value, active) := (Container.load (← receiveAll width) swap).peel bits
    modify fun reader ↦ { reader with active := some active }
    return value

/-- Reads exactly `count` bytes. -/
def readBytes (count : Nat) : ReadM (List UInt8) := do
  resetBits
  receiveAll count

/-- Reads a raw scalar of `width` bytes, whose highest byte comes first if `swap` says so. -/
def readRaw (width : Nat) (swap : Bool) : ReadM Nat := do
  return ofWireBytes (← readBytes width) swap

/-- Reads and drops exactly `count` bytes. -/
def skip (count : Nat) : ReadM Unit := do
  let _ ← readBytes count

/-- Reads up to `count` bytes. -/
def readSome (count : Nat) : ReadM (List UInt8) := do
  resetBits
  receive count

/-- Reads up to a zero byte, which is read too but not part of the answer. -/
def readUntilNul : ReadM (List UInt8) := do
  resetBits
  let bytes := (← get).source.takeWhile (· != 0)
  let _ ← receiveAll (bytes.length + 1)
  return bytes

end Reader

end WireFormat
