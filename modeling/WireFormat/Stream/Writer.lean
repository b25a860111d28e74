import WireFormat.Container.Packer

/-!
# Writing

A `Sink` takes bytes, all of them or up to a capacity.  A `Writer` writes to a sink, counts the
bytes and owns the pending bit container: everything but `Writer.pack` first sends that container
out, so that plain bytes never share one with bits.

All operations run in `WriteM`, which keeps the writer as it is when an operation fails: bytes that
were written before stay written.
-/

namespace WireFormat

/-- What bytes are written to. -/
structure Sink where
  /-- The bytes written so far. -/
  bytes : Array UInt8 := #[]
  /-- The number of bytes that it can hold; `none` if there is no limit. -/
  capacity : Option Nat := none
deriving DecidableEq, Repr

namespace Sink

/-- The bytes that still fit, of some that are to be written. -/
def fitting (sink : Sink) (bytes : List UInt8) : List UInt8 :=
  match sink.capacity with
  | none => bytes
  | some capacity => bytes.take (capacity - sink.bytes.size)

/-- How many bytes still fit, of `count` that are to be written. -/
def fittingCount (sink : Sink) (count : Nat) : Nat :=
  match sink.capacity with
  | none => count
  | some capacity => min (capacity - sink.bytes.size) count

theorem fittingCount_fittingCount (sink : Sink) (count : Nat) :
    sink.fittingCount (sink.fittingCount count) = sink.fittingCount count := by
  cases h : sink.capacity <;> simp [fittingCount, h]

theorem fitting_replicate (sink : Sink) (count : Nat) (byte : UInt8) :
    sink.fitting (List.replicate count byte) = List.replicate (sink.fittingCount count) byte := by
  unfold fitting fittingCount
  split
  · rfl
  · exact List.take_replicate ..

/-- Takes as many bytes as fit, and says how many. -/
def accept (sink : Sink) (bytes : List UInt8) : Nat × Sink :=
  let fitting := sink.fitting bytes
  match sink with
  | ⟨written, capacity⟩ => (fitting.length, ⟨written ++ fitting, capacity⟩)

end Sink

/-- A sink that is being written to, with the pending bits. -/
structure Writer where
  sink : Sink := {}
  /-- The number of bytes written through this writer. -/
  position : Nat := 0
  packer : Packer := {}
deriving DecidableEq, Repr

/-- Operations of a writer.  A failing one leaves the writer as far as it got. -/
abbrev WriteM := EStateM Error Writer

namespace Writer

/-- Writes as many bytes as the sink takes, and says how many. -/
def send (bytes : List UInt8) : WriteM Nat
  | ⟨sink, position, packer⟩ =>
    match sink.accept bytes with
    | (count, sink) => .ok count ⟨sink, position + count, packer⟩

/-- Writes bytes.  If they do not all fit, those that fit are written and the sink is full. -/
def sendAll (bytes : List UInt8) : WriteM Unit := do
  let count ← send bytes
  if count < bytes.length then
    throw (.io .writeZero)

/-- Writes zero bytes.  If they do not all fit, the sink is filled with zeros. -/
def sendZeros (count : Nat) : WriteM Unit := do
  let fitting := (← get).sink.fittingCount count
  sendAll (List.replicate fitting 0)
  if fitting < count then
    throw (.io .writeZero)

/-- Zeros are sent as any other bytes, but those that do not fit are never made. -/
theorem sendZeros_eq (count : Nat) : sendZeros count = sendAll (List.replicate count 0) := by
  funext ⟨sink, position, packer⟩
  have hget : (get : WriteM Writer) ⟨sink, position, packer⟩ =
      .ok ⟨sink, position, packer⟩ ⟨sink, position, packer⟩ := rfl
  simp [sendZeros, sendAll, send, Sink.accept, Sink.fitting_replicate,
    Sink.fittingCount_fittingCount, bind, EStateM.bind, hget, pure, EStateM.pure]

/-- Takes the bytes of the pending container out of the writer. -/
def takePending : WriteM (List UInt8)
  | ⟨sink, position, packer⟩ => .ok packer.pending ⟨sink, position, {}⟩

/-- Writes the pending container.  It is no longer pending, even if it does not fit. -/
def flushBits : WriteM Unit := do
  sendAll (← takePending)

/-- Puts bits into the pending container, after writing it if they have to start a new one. -/
def pack (value width bits : Nat) (swap : Bool) : WriteM Unit := do
  match (← get).packer.pack value width bits swap with
  | .error error => throw (.data error)
  | .ok (bytes, packer) =>
    if bytes.isEmpty then
      modify fun writer ↦ { writer with packer := packer }
    else
      modify fun writer ↦ { writer with packer := {} }
      sendAll bytes
      modify fun writer ↦ { writer with packer := packer }

/-- Writes bytes after the pending container. -/
def writeBytes (bytes : List UInt8) : WriteM Unit := do
  flushBits
  sendAll bytes

/-- Writes a raw scalar of `width` bytes, with its highest byte first if `swap` says so. -/
def writeRaw (width raw : Nat) (swap : Bool) : WriteM Unit := writeBytes (wireBytes width raw swap)

/-- Writes zero bytes after the pending container. -/
def writeZeros (count : Nat) : WriteM Unit := do
  flushBits
  sendZeros count

/-- Writes as many bytes as fit after the pending container, and says how many. -/
def writeSome (bytes : List UInt8) : WriteM Nat := do
  flushBits
  send bytes

/-- Writes the pending container and says how many bytes were written in all. -/
def finish : WriteM Nat := do
  flushBits
  return (← get).position

end Writer

end WireFormat
