import WireFormat.Plan.Decode
import WireFormat.Proofs.Format.Slots
import WireFormat.Proofs.Stream.Writing

/-!
# The bytes that a codec moves itself

The bytes that are moved while a codec is at work are held against its promise.  `WriteScript.trace`
and `ReadScript.trace` carry a script out and keep the bytes that the codec itself has moved.  On
reading, these are the bytes that count.  On writing, a container that is pending before the codec
goes out meanwhile, and counts too.

* `WriteScript.adds_of_trace` — what a script adds to what was written or pending;
* `ReadScript.position_of_trace` — what a script takes from what is to be read;
* `Operation.breaksPromise_encode_iff`, `Operation.breaksPromise_decode_iff` — when a codec is found
  to have broken its promise.
-/

namespace WireFormat

/-- An action fails because a codec has not kept its promise. -/
def BreaksPromise {σ α : Type} (action : EStateM Error σ α) (s : σ) (actual : Nat)
    (contract : SizeContract) : Prop :=
  ∃ s', action s = .error (.data (.sizeContract actual contract)) s'

/-- A codec is charged with the bytes that it moves and some more, and they are not as many as it
has promised. -/
structure Codec.IsCharged (codec : Codec) (moves : List UInt8 → Prop) (extra actual : Nat)
    (contract : SizeContract) : Prop where
  moved : ∃ bytes, moves bytes ∧ actual = extra + bytes.length
  contract_eq : contract = codec.size
  broken : ¬ codec.size.Admits actual

/-! ## Writing -/

namespace Writer

/-- On top of what was written or pending, some bytes have come. -/
structure Adds (writer : Writer) (bytes : List UInt8) (next : Writer) : Prop where
  position : next.position + next.packer.pending.length =
    writer.position + writer.packer.pending.length + bytes.length
  sink : next.sink.bytes.toList ++ next.packer.pending =
    writer.sink.bytes.toList ++ writer.packer.pending ++ bytes

variable {writer middle next : Writer} {bytes more : List UInt8} {count : Nat} {error : Error}

theorem Adds.refl (writer : Writer) : writer.Adds [] writer :=
  ⟨rfl, (List.append_nil _).symm⟩

theorem Adds.trans (h : writer.Adds bytes middle) (hmore : middle.Adds more next) :
    writer.Adds (bytes ++ more) next := by
  constructor
  · rw [hmore.position, h.position, List.length_append, Nat.add_assoc]
  · rw [hmore.sink, h.sink, List.append_assoc]

/-- The pending container was there before. -/
theorem adds_of_flushBits (h : flushBits writer = .ok () next) : writer.Adds [] next := by
  rw [flushBits_eq_ok h]
  constructor <;> simp [sent, Packer.pending]

theorem packer_eq_of_flushBits (h : flushBits writer = .ok () next) : next.packer = {} := by
  rw [flushBits_eq_ok h]
  rfl

theorem adds_of_writeSome (h : writeSome bytes writer = .ok count next) :
    writer.Adds (bytes.take count) next := by
  obtain ⟨_, ⟨⟨written, capacity⟩, position, packer⟩, hflush, hsend⟩ := run_bind_eq_ok_iff.1 h
  refine (adds_of_flushBits hflush).trans (?_ : Adds _ _ _)
  obtain rfl : packer = {} := packer_eq_of_flushBits hflush
  obtain ⟨rfl, rfl⟩ : _ = count ∧ _ = next := by simpa [send, Sink.accept] using hsend
  have htake : bytes.take (Sink.fitting ⟨written, capacity⟩ bytes).length =
      Sink.fitting ⟨written, capacity⟩ bytes := by
    cases capacity with
    | none => exact List.take_length
    | some capacity =>
      rw [Sink.fitting, List.length_take]
      exact List.take_eq_take_min.symm
  rw [htake]
  constructor <;> simp [Packer.pending]

/-- With nothing pending there is nothing to go out. -/
theorem flushBits_of_packer_eq (h : writer.packer = {}) : flushBits writer = .ok () writer := by
  obtain ⟨⟨written, capacity⟩, position, packer⟩ := writer
  obtain rfl : packer = {} := h
  have hsend : send [] ⟨⟨written, capacity⟩, position, {}⟩ =
      .ok 0 ⟨⟨written, capacity⟩, position, {}⟩ := by
    cases capacity <;> simp [send, Sink.accept, Sink.fitting]
  exact run_bind_eq_ok_iff.2 ⟨[], _, rfl, run_bind_eq_ok_iff.2 ⟨0, _, hsend, rfl⟩⟩

end Writer

namespace WriteScript

variable {script : WriteScript} {writer next : Writer} {bytes : List UInt8} {error : Error}

/-- Carries a script out and answers with the bytes that its own requests have had written. -/
def trace : WriteScript → WriteM (List UInt8)
  | done => pure []
  | fail error => throw error
  | write bytes next => do
    let count ← Writer.writeSome bytes
    let more ← (next count).trace
    return bytes.take count ++ more
  | flush next => do
    Writer.flushBits
    next.trace

theorem run_eq_trace (script : WriteScript) : script.run = script.trace >>= fun _ ↦ pure () := by
  induction script with
  | done => rfl
  | fail error => rfl
  | write bytes next ih => simp [run, trace, ih]
  | flush next ih => simp [run, trace, ih]

theorem run_eq_ok_iff : script.run writer = .ok () next ↔
    ∃ bytes, script.trace writer = .ok bytes next := by
  rw [run_eq_trace, run_bind_eq_ok_iff]
  constructor
  · rintro ⟨bytes, _, htrace, hpure⟩
    obtain ⟨-, rfl⟩ := run_pure_eq_ok_iff.1 hpure
    exact ⟨bytes, htrace⟩
  · rintro ⟨bytes, htrace⟩
    exact ⟨bytes, next, htrace, rfl⟩

theorem run_eq_error_iff : script.run writer = .error error next ↔
    script.trace writer = .error error next := by
  rw [run_eq_trace, run_bind_pure_eq_error_iff]

/-- What a script has had written comes on top of what was written or pending. -/
theorem adds_of_trace (h : script.trace writer = .ok bytes next) : writer.Adds bytes next := by
  induction script generalizing writer bytes with
  | done =>
    obtain ⟨rfl, rfl⟩ := run_pure_eq_ok_iff.1 h
    exact .refl writer
  | fail error => cases h
  | write own script ih =>
    obtain ⟨count, middle, hwrite, h⟩ := run_bind_eq_ok_iff.1 h
    obtain ⟨more, last, hmore, h⟩ := run_bind_eq_ok_iff.1 h
    obtain ⟨rfl, rfl⟩ := run_pure_eq_ok_iff.1 h
    exact (Writer.adds_of_writeSome hwrite).trans (ih count hmore)
  | flush script ih =>
    obtain ⟨_, middle, hflush, hrest⟩ := run_bind_eq_ok_iff.1 h
    exact (Writer.adds_of_flushBits hflush).trans (ih hrest)

theorem packer_eq_of_trace (hpacker : writer.packer = {})
    (h : script.trace writer = .ok bytes next) : next.packer = {} := by
  induction script generalizing writer bytes with
  | done =>
    obtain ⟨-, rfl⟩ := run_pure_eq_ok_iff.1 h
    exact hpacker
  | fail error => cases h
  | write own script ih =>
    obtain ⟨count, middle, hwrite, h⟩ := run_bind_eq_ok_iff.1 h
    obtain ⟨more, last, hmore, h⟩ := run_bind_eq_ok_iff.1 h
    obtain ⟨rfl, rfl⟩ := run_pure_eq_ok_iff.1 h
    obtain ⟨_, flushed, hflush, hsend⟩ := run_bind_eq_ok_iff.1 hwrite
    refine ih count ?_ hmore
    rw [← Writer.packer_eq_of_flushBits hflush]
    cases hsend
    rfl
  | flush script ih =>
    obtain ⟨_, middle, hflush, hrest⟩ := run_bind_eq_ok_iff.1 h
    exact ih (Writer.packer_eq_of_flushBits hflush) hrest

end WriteScript

/-- How a codec fails to write: by itself, by what is pending after it or by what it is charged
with, which are the bytes that it has had written and those that were pending before. -/
theorem Operation.encodeCustom_eq_error_iff {codec : Codec} {context : Option Members}
    {value : Value} {writer last : Writer} {error : Error} :
    encodeCustom codec context value writer = .error error last ↔
      (codec.encode value context).trace writer = .error error last ∨
        ∃ bytes middle, (codec.encode value context).trace writer = .ok bytes middle ∧
          (Writer.flushBits middle = .error error last ∨
            Writer.flushBits middle = .ok () last ∧
              ¬ codec.size.Admits (writer.packer.pending.length + bytes.length) ∧
              error = .data (.sizeContract (writer.packer.pending.length + bytes.length)
                codec.size)) := by
  have hcharge : ∀ {bytes middle next},
      (codec.encode value context).trace writer = .ok bytes middle →
      Writer.flushBits middle = .ok () next →
        next.position - writer.position = writer.packer.pending.length + bytes.length := by
    intro bytes middle next htrace hflush
    have hposition := ((WriteScript.adds_of_trace htrace).trans
      (Writer.adds_of_flushBits hflush)).position
    rw [Writer.packer_eq_of_flushBits hflush, List.append_nil] at hposition
    change next.position + 0 = _ at hposition
    omega
  rw [encodeCustom]
  simp only [run_bind_eq_error_iff, run_get_ne_error, run_get_eq_ok_iff, false_or, existsAndEq,
    true_and, WriteScript.run_eq_error_iff]
  refine or_congr Iff.rfl ⟨?_, ?_⟩
  · rintro ⟨_, middle, hrun, hrest⟩
    obtain ⟨bytes, htrace⟩ := WriteScript.run_eq_ok_iff.1 hrun
    refine ⟨bytes, middle, htrace, hrest.imp id ?_⟩
    rintro ⟨_, next, hflush, hcheck⟩
    rw [hcharge htrace hflush] at hcheck
    split at hcheck
    · next hbroken =>
      obtain ⟨rfl, rfl⟩ := run_throw_eq_error_iff.1 hcheck
      exact ⟨hflush, by simpa using hbroken, rfl⟩
    · cases hcheck
  · rintro ⟨bytes, middle, htrace, hrest⟩
    refine ⟨(), middle, WriteScript.run_eq_ok_iff.2 ⟨bytes, htrace⟩, hrest.imp id ?_⟩
    rintro ⟨hflush, hbroken, rfl⟩
    refine ⟨(), last, hflush, ?_⟩
    rw [hcharge htrace hflush, if_pos (by simpa using hbroken)]
    rfl

namespace Operation

variable {codec : Codec} {context : Option String} {traversal : Traversal Members} {value : Value}
  {actual : Nat} {contract : SizeContract}

/-- What is held against the promise of a codec that has written are its own bytes and those that
were pending before. -/
theorem breaksPromise_encode_iff {writer : Writer} :
    BreaksPromise (Operation.encode traversal value (.custom codec context)) writer actual
        contract ↔
      BreaksPromise (codec.encode value (context.bind traversal.findSubject?)).trace writer actual
          contract ∨
        codec.IsCharged (fun bytes ↦ ∃ middle last,
          (codec.encode value (context.bind traversal.findSubject?)).trace writer =
            .ok bytes middle ∧ Writer.flushBits middle = .ok () last)
          writer.packer.pending.length actual contract := by
  rw [Operation.encode]
  constructor
  · rintro ⟨last, h⟩
    obtain htrace | ⟨bytes, middle, htrace, hflush | ⟨hflush, hbroken, herror⟩⟩ :=
      encodeCustom_eq_error_iff.1 h
    · exact .inl ⟨last, htrace⟩
    · cases Writer.eq_of_flushBits_eq_error hflush
    · cases herror
      exact .inr ⟨⟨bytes, ⟨middle, last, htrace, hflush⟩, rfl⟩, rfl, hbroken⟩
  · rintro (⟨last, htrace⟩ | ⟨⟨bytes, ⟨middle, last, htrace, hflush⟩, rfl⟩, rfl, hbroken⟩)
    · exact ⟨last, encodeCustom_eq_error_iff.2 (.inl htrace)⟩
    · exact ⟨last, encodeCustom_eq_error_iff.2
        (.inr ⟨bytes, middle, htrace, .inr ⟨hflush, hbroken, rfl⟩⟩)⟩

/-- With nothing pending before, a codec is charged with its own bytes. -/
theorem breaksPromise_encode_iff_of_packer_eq {writer : Writer} (hidle : writer.packer = {}) :
    BreaksPromise (Operation.encode traversal value (.custom codec context)) writer actual
        contract ↔
      BreaksPromise (codec.encode value (context.bind traversal.findSubject?)).trace writer actual
          contract ∨
        codec.IsCharged (fun bytes ↦ ∃ next,
          (codec.encode value (context.bind traversal.findSubject?)).trace writer = .ok bytes next)
          0 actual contract := by
  have hpending : writer.packer.pending.length = 0 := by rw [hidle]; rfl
  rw [breaksPromise_encode_iff, hpending]
  refine or_congr Iff.rfl ⟨?_, ?_⟩
  · rintro ⟨⟨bytes, ⟨middle, -, htrace, -⟩, hactual⟩, hcontract, hbroken⟩
    exact ⟨⟨bytes, ⟨middle, htrace⟩, hactual⟩, hcontract, hbroken⟩
  · rintro ⟨⟨bytes, ⟨next, htrace⟩, hactual⟩, hcontract, hbroken⟩
    have hflush := Writer.flushBits_of_packer_eq (WriteScript.packer_eq_of_trace hidle htrace)
    exact ⟨⟨bytes, ⟨next, next, htrace, hflush⟩, hactual⟩, hcontract, hbroken⟩

end Operation

/-! ## Reading -/

namespace ReadScript

variable {script : ReadScript} {reader next : Reader} {value : Value} {bytes : List UInt8}
  {error : Error}

/-- Carries a script out; the answer is its value and the bytes that its own requests have read. -/
def trace : ReadScript → ReadM (Value × List UInt8)
  | done value => pure (value, [])
  | fail error => throw error
  | read count next => do
    let bytes ← Reader.readSome count
    let (value, more) ← (next bytes).trace
    return (value, bytes ++ more)

theorem run_eq_trace (script : ReadScript) :
    script.run = script.trace >>= fun result ↦ pure result.1 := by
  induction script with
  | done value => rfl
  | fail error => rfl
  | read count next ih => simp [run, trace, ih]

theorem run_eq_ok_iff : script.run reader = .ok value next ↔
    ∃ bytes, script.trace reader = .ok (value, bytes) next := by
  rw [run_eq_trace, run_bind_eq_ok_iff]
  constructor
  · rintro ⟨⟨value, bytes⟩, _, htrace, hpure⟩
    obtain ⟨rfl, rfl⟩ := run_pure_eq_ok_iff.1 hpure
    exact ⟨bytes, htrace⟩
  · rintro ⟨bytes, htrace⟩
    exact ⟨_, next, htrace, rfl⟩

theorem run_eq_error_iff : script.run reader = .error error next ↔
    script.trace reader = .error error next := by
  rw [run_eq_trace, run_bind_pure_eq_error_iff]

/-- What a script has read is what has been read. -/
theorem position_of_trace (h : script.trace reader = .ok (value, bytes) next) :
    next.position = reader.position + bytes.length ∧ reader.source = bytes ++ next.source := by
  induction script generalizing reader bytes with
  | done own =>
    obtain ⟨hresult, rfl⟩ := run_pure_eq_ok_iff.1 h
    cases hresult
    exact ⟨rfl, rfl⟩
  | fail error => cases h
  | read count script ih =>
    obtain ⟨own, middle, hread, h⟩ := run_bind_eq_ok_iff.1 h
    obtain ⟨⟨_, more⟩, last, hmore, h⟩ := run_bind_eq_ok_iff.1 h
    obtain ⟨hresult, rfl⟩ := run_pure_eq_ok_iff.1 h
    cases hresult
    obtain ⟨hposition, hsource⟩ := ih own hmore
    cases hread
    constructor
    · rw [hposition, List.length_append, Nat.add_assoc]
    · rw [List.append_assoc, ← hsource]
      exact (List.take_append_drop ..).symm

end ReadScript

/-- How a codec fails to read: by itself, or by the bytes that it has read. -/
theorem Operation.decodeCustom_eq_error_iff {codec : Codec} {context : Option Members}
    {reader last : Reader} {error : Error} :
    decodeCustom codec context reader = .error error last ↔
      (codec.decode context).trace reader = .error error last ∨
        ∃ value bytes middle, (codec.decode context).trace reader = .ok (value, bytes) middle ∧
          last = { middle with active := none } ∧ ¬ codec.size.Admits bytes.length ∧
          error = .data (.sizeContract bytes.length codec.size) := by
  rw [decodeCustom]
  simp only [run_bind_eq_error_iff, run_get_ne_error, run_get_eq_ok_iff, false_or, existsAndEq,
    true_and, ReadScript.run_eq_error_iff, Reader.resetBits, run_modify_ne_error]
  refine or_congr Iff.rfl ⟨?_, ?_⟩
  · rintro ⟨value, middle, hrun, _, next, hreset, hcheck⟩
    obtain ⟨bytes, htrace⟩ := ReadScript.run_eq_ok_iff.1 hrun
    obtain rfl := run_modify_eq_ok_iff.1 hreset
    have hcharge : middle.position - reader.position = bytes.length := by
      rw [(ReadScript.position_of_trace htrace).1, Nat.add_sub_cancel_left]
    refine ⟨value, bytes, middle, htrace, ?_⟩
    dsimp only at hcheck
    rw [hcharge] at hcheck
    split at hcheck
    · next hbroken =>
      obtain hthrow | ⟨_, _, hthrow, -⟩ := run_bind_eq_error_iff.1 hcheck
      · obtain ⟨rfl, rfl⟩ := run_throw_eq_error_iff.1 hthrow
        exact ⟨rfl, by simpa using hbroken, rfl⟩
      · cases hthrow
    · cases hcheck
  · rintro ⟨value, bytes, middle, htrace, rfl, hbroken, rfl⟩
    have hcharge : middle.position - reader.position = bytes.length := by
      rw [(ReadScript.position_of_trace htrace).1, Nat.add_sub_cancel_left]
    refine ⟨value, middle, ReadScript.run_eq_ok_iff.2 ⟨bytes, htrace⟩, (), _, rfl, ?_⟩
    dsimp only
    rw [hcharge, if_pos (by simpa using hbroken)]
    rfl

/-- What is held against the promise of a codec that has read are its own bytes. -/
theorem Operation.breaksPromise_decode_iff {codec : Codec} {context : Option String}
    {traversal : Traversal Members} {reader : Reader} {actual : Nat} {contract : SizeContract} :
    BreaksPromise (Operation.decode traversal (.custom codec context)) reader actual contract ↔
      BreaksPromise (codec.decode (context.bind traversal.findSubject?)).trace reader actual
          contract ∨
        codec.IsCharged (fun bytes ↦ ∃ value next,
          (codec.decode (context.bind traversal.findSubject?)).trace reader =
            .ok (value, bytes) next) 0 actual contract := by
  rw [Operation.decode]
  constructor
  · rintro ⟨last, h⟩
    obtain htrace | ⟨value, bytes, middle, htrace, -, hbroken, herror⟩ :=
      decodeCustom_eq_error_iff.1 h
    · exact .inl ⟨last, htrace⟩
    · cases herror
      exact .inr ⟨⟨bytes, ⟨value, middle, htrace⟩, (Nat.zero_add _).symm⟩, rfl, hbroken⟩
  · rintro (⟨last, htrace⟩ | ⟨⟨bytes, ⟨value, middle, htrace⟩, rfl⟩, rfl, hbroken⟩)
    · exact ⟨last, decodeCustom_eq_error_iff.2 (.inl htrace)⟩
    · rw [Nat.zero_add] at hbroken ⊢
      exact ⟨_, decodeCustom_eq_error_iff.2
        (.inr ⟨value, bytes, middle, htrace, rfl, hbroken, rfl⟩)⟩

end WireFormat
