/-!
# Bytes and bits of natural numbers

A raw scalar is a natural number below `256 ^ width`.  It is written as its `width` bytes, the
lowest first, and `reverseBytes` is the number whose bytes come in the other order.

* `ofLittleEndian_littleEndian`, `littleEndian_ofLittleEndian` — the bytes of a number and the
  number of some bytes determine each other.
* `length_littleEndian` — the number of bytes is the width.
-/

namespace WireFormat

-- Powers of numbers are those of the core library, whatever else is imported.
attribute [scoped instance (high)] instPowNat

/-- The `width` lowest bytes of `raw`, the lowest first. -/
def littleEndian : Nat → Nat → List UInt8
  | 0, _ => []
  | width + 1, raw => UInt8.ofNat raw :: littleEndian width (raw / 256)

/-- The number with the given bytes, the lowest first. -/
def ofLittleEndian : List UInt8 → Nat
  | [] => 0
  | byte :: rest => byte.toNat + 256 * ofLittleEndian rest

/-- The number whose `width` bytes are those of `raw` in the other order.  A single byte, or none,
has no other order. -/
def reverseBytes (width raw : Nat) : Nat :=
  if width ≤ 1 then raw else ofLittleEndian (littleEndian width raw).reverse

/-- The bytes of a raw scalar on the wire; `swap` asks for the highest byte first. -/
def wireBytes (width raw : Nat) (swap : Bool) : List UInt8 :=
  littleEndian width (if swap then reverseBytes width raw else raw)

/-- The raw scalar that some bytes of the wire stand for; `swap` says that the highest byte came
first. -/
def ofWireBytes (bytes : List UInt8) (swap : Bool) : Nat :=
  let raw := ofLittleEndian bytes
  if swap then reverseBytes bytes.length raw else raw

/-- The number with the low `bits` bits set, of at most 64. -/
def lowMask (bits : Nat) : Nat := 2 ^ min bits 64 - 1

/-- The integer that the low `bits` bits of a 64-bit word stand for in two's complement.  No bits,
or more than the word has, mean the whole word. -/
def signExtend (word bits : Nat) : Int :=
  (word : Int).bmod (2 ^ (if bits = 0 then 64 else min bits 64))

@[simp] theorem length_littleEndian (width raw : Nat) :
    (littleEndian width raw).length = width := by
  induction width generalizing raw with
  | zero => rfl
  | succ width ih => simp [littleEndian, ih]

theorem ofLittleEndian_littleEndian (width raw : Nat) :
    ofLittleEndian (littleEndian width raw) = raw % 256 ^ width := by
  induction width generalizing raw with
  | zero => simp [littleEndian, ofLittleEndian, Nat.mod_one]
  | succ width ih =>
    rw [littleEndian, ofLittleEndian, ih, Nat.pow_succ', Nat.mod_mul]
    rfl

theorem ofLittleEndian_lt (bytes : List UInt8) : ofLittleEndian bytes < 256 ^ bytes.length := by
  induction bytes with
  | nil => decide
  | cons byte rest ih =>
    have h := byte.toNat_lt
    rw [ofLittleEndian, List.length_cons, Nat.pow_succ]
    omega

theorem littleEndian_ofLittleEndian (bytes : List UInt8) :
    littleEndian bytes.length (ofLittleEndian bytes) = bytes := by
  induction bytes with
  | nil => rfl
  | cons byte rest ih =>
    have h := byte.toNat_lt
    have hdiv : (byte.toNat + 256 * ofLittleEndian rest) / 256 = ofLittleEndian rest := by omega
    have hbyte : UInt8.ofNat (byte.toNat + 256 * ofLittleEndian rest) = byte := by
      apply UInt8.toNat_inj.1
      rw [UInt8.toNat_ofNat']
      omega
    rw [List.length_cons, ofLittleEndian, littleEndian, hdiv, hbyte, ih]

end WireFormat
