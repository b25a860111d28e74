import WireFormat.Stream.Reader
import WireFormat.Stream.Writer
import WireFormat.Value

/-!
# Custom codecs

A custom codec handles a field that no tag describes.  What it does to the stream is a script:
requests for bytes to be written or read, each followed by what comes next.  A codec gets the
members of an enclosing record as its context and promises how many bytes it moves.

* `WriteScript.run` and `ReadScript.run` carry scripts out;
* `WriteScript.all` and `ReadScript.exactly` are the requests for all of some bytes.
-/

namespace WireFormat

/-- What a codec does to write a value. -/
inductive WriteScript where
  | done
  | fail (error : Error)
  /-- Asks for bytes to be written and goes on with the number of bytes that were. -/
  | write (bytes : List UInt8) (next : Nat → WriteScript)
  | flush (next : WriteScript)

namespace WriteScript

/-- Writes all of some bytes, in as many requests as it takes. -/
def all (bytes : List UInt8) (next : WriteScript) : WriteScript :=
  if bytes = [] then
    next
  else
    write bytes fun count ↦
      if _h : count = 0 then fail (.io .writeZero) else all (bytes.drop count) next
termination_by bytes.length
decreasing_by
  have : 0 < bytes.length := List.length_pos_iff.2 ‹_›
  rw [List.length_drop]
  omega

/-- Carries a script out. -/
def run : WriteScript → WriteM Unit
  | done => pure ()
  | fail error => throw error
  | write bytes next => do
    let count ← Writer.writeSome bytes
    (next count).run
  | flush next => do
    Writer.flushBits
    next.run

end WriteScript

/-- What a codec does to read a value. -/
inductive ReadScript where
  | done (value : Value)
  | fail (error : Error)
  /-- Asks for up to `count` bytes and goes on with those that there were. -/
  | read (count : Nat) (next : List UInt8 → ReadScript)

namespace ReadScript

/-- Reads exactly `count` bytes, in as many requests as it takes. -/
def exactly (count : Nat) (next : List UInt8 → ReadScript) : ReadScript :=
  if count = 0 then
    next []
  else
    read count fun bytes ↦
      if _h : bytes.length = 0 then
        fail (.io .unexpectedEof)
      else
        exactly (count - bytes.length) fun more ↦ next (bytes ++ more)
termination_by count

/-- Carries a script out. -/
def run : ReadScript → ReadM Value
  | done value => pure value
  | fail error => throw error
  | read count next => do
    let bytes ← Reader.readSome count
    (next bytes).run

end ReadScript

/-- A hand-written codec. -/
structure Codec where
  /-- The number of bytes that it promises to move for each value. -/
  size : SizeContract
  /-- Writes a value.  The members are those of the record that the codec has as its context; on
  reading they are the ones read so far. -/
  encode : Value → Option Members → WriteScript
  /-- Reads a value. -/
  decode : Option Members → ReadScript
  /-- The value that fills the free slots of a list, if there is one. -/
  default? : Option Value := none

end WireFormat
