import WireFormat.Error
import WireFormat.Word

/-!
# Bit containers

Fields of less than a byte share containers of one to eight bytes.  The first field of a container
takes its lowest bits, and the container goes over the wire as one number of its width.

* `Container.start` and `Container.add` — filling a container;
* `Container.load` and `Container.peel` — taking it apart;
* `Container.check` — the widths and bit counts that a container can have at all.
-/

namespace WireFormat

/-- A container that is being filled or taken apart. -/
structure Container where
  /-- The bits themselves, as a number. -/
  word : Nat
  /-- The width of the container in bytes. -/
  width : Nat
  /-- The bits that are filled, or that are still to be taken. -/
  bits : Nat
  /-- Whether the container has its highest byte first on the wire. -/
  swap : Bool
deriving DecidableEq, Repr

namespace Container

/-- The number of bits of a container. -/
def capacity (container : Container) : Nat := 8 * container.width

/-- Whether `bits` bits can lie in a container of `width` bytes. -/
def check (width bits : Nat) : Except DataError Unit :=
  if width < 1 ∨ 8 < width then
    .error (.invalidContainerWidth width)
  else if 8 * width < bits then
    .error (.containerOverflow bits width)
  else
    .ok ()

/-- A container that holds one field. -/
def start (value width bits : Nat) (swap : Bool) : Container := ⟨value, width, bits, swap⟩

/-- Whether a field of a container of the same width still fits. -/
def hasRoom (container : Container) (width bits : Nat) : Bool :=
  container.width == width && decide (container.bits + bits ≤ container.capacity)

/-- Puts one more field above the ones that are there. -/
def add (container : Container) (value bits : Nat) : Container :=
  { container with
    word := container.word + value * 2 ^ container.bits
    bits := container.bits + bits }

/-- The bytes of a container on the wire. -/
def bytes (container : Container) : List UInt8 :=
  wireBytes container.width container.word container.swap

/-- The full container that some bytes of the wire are. -/
def load (bytes : List UInt8) (swap : Bool) : Container :=
  ⟨ofWireBytes bytes swap, bytes.length, 8 * bytes.length, swap⟩

/-- Whether a field can still be taken from a container of the same width. -/
def holds (container : Container) (width bits : Nat) : Bool :=
  container.width == width && decide (bits ≤ container.bits)

/-- Takes the lowest bits. -/
def peel (container : Container) (bits : Nat) : Nat × Container :=
  (container.word % 2 ^ bits,
    { container with
      word := container.word / 2 ^ bits
      bits := container.bits - bits })

end Container

end WireFormat
