import WireFormat.Container.Basic

/-!
# Packing bits

A packer keeps the container that is being filled.  `Packer.pack` answers with the bytes that go out
first, which are those of a container that cannot take the new field, and the packer afterwards.
-/

namespace WireFormat

/-- The container that is being filled, if any. -/
structure Packer where
  active : Option Container := none
deriving DecidableEq, Repr

namespace Packer

/-- Whether no bits are pending. -/
def isEmpty (packer : Packer) : Bool := packer.active.isNone

/-- The bytes of the pending container. -/
def pending (packer : Packer) : List UInt8 := (packer.active.map Container.bytes).getD []

/-- Packs the `bits` bits of `value` into a container of `width` bytes.  No bits at all end the
pending container.  A field starts a container of its own if there is none, if the pending one has
another width and if its bits do not fit any more; otherwise it has to agree with the pending one
about the order of the bytes. -/
def pack (packer : Packer) (value width bits : Nat) (swap : Bool) :
    Except DataError (List UInt8 × Packer) := do
  Container.check width bits
  if 2 ^ bits ≤ value then
    throw (.bitOverflow value bits)
  if bits = 0 then
    return (packer.pending, {})
  match packer.active with
  | none => return ([], ⟨Container.start value width bits swap⟩)
  | some active =>
    if active.hasRoom width bits then
      if active.swap = swap then
        return ([], ⟨active.add value bits⟩)
      else
        throw .containerSwapMismatch
    else
      return (active.bytes, ⟨Container.start value width bits swap⟩)

end Packer

end WireFormat
