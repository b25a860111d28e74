import WireFormat.Proofs.Failure
import WireFormat.Proofs.Stream.Moves
import WireFormat.Stream.Writer

/-!
# Moves of a writer

`Writer.Along` says that a writer has gone from one state to another by some moves, in terms of what
can still come: whatever is written afterwards makes the same bytes of both.  Each operation of a
writer that succeeds goes along the moves that it stands for.
-/

namespace WireFormat

theorem Packer.pack_eq_ok {packer result : Packer} {value width bits : Nat} {swap : Bool}
    {bytes : List UInt8} (hbits : bits ≠ 0)
    (h : packer.pack value width bits swap = .ok (bytes, result)) :
    Container.check width bits = .ok () ∧ value < 2 ^ bits ∧
      ((∃ active, packer.active = some active ∧ active.hasRoom width bits = true ∧
        active.swap = swap ∧ bytes = [] ∧ result = ⟨some (active.add value bits)⟩) ∨
      ((∀ active ∈ packer.active, active.hasRoom width bits = false) ∧
        bytes = packer.pending ∧ result = ⟨some (.start value width bits swap)⟩)) := by
  rw [pack, bind_eq_ok_iff] at h
  obtain ⟨_, hcheck, h⟩ := h
  refine ⟨hcheck, ?_⟩
  dsimp only at h
  by_cases hvalue : 2 ^ bits ≤ value
  · rw [if_pos hvalue] at h
    cases h
  rw [if_neg hvalue, if_neg hbits] at h
  refine ⟨Nat.not_le.1 hvalue, ?_⟩
  cases hactive : packer.active with
  | none =>
    rw [hactive] at h
    obtain ⟨rfl, rfl⟩ := Prod.mk.inj (Except.ok.inj h)
    exact .inr ⟨nofun, by rw [pending, hactive]; rfl, rfl⟩
  | some active =>
    rw [hactive] at h
    dsimp only at h
    split at h
    · next hroom =>
      split at h
      · next hswap =>
        obtain ⟨rfl, rfl⟩ := Prod.mk.inj (Except.ok.inj h)
        exact .inl ⟨active, rfl, hroom, hswap, rfl, rfl⟩
      · cases h
    · next hroom =>
      obtain ⟨rfl, rfl⟩ := Prod.mk.inj (Except.ok.inj h)
      refine .inr ⟨?_, by rw [pending, hactive]; rfl, rfl⟩
      rintro _ ⟨⟩
      exact Bool.eq_false_iff.2 hroom

namespace Writer

/-- The bytes of the sink, if the pending container goes out with a number and some bytes follow. -/
def outcome (writer : Writer) (word : Nat) (bytes : List UInt8) : List UInt8 :=
  writer.sink.bytes.toList ++ pendingBytes writer.packer.active word ++ bytes

/-- Whatever the second writer comes to, the first one comes to by making the moves before. -/
structure Along (writer : Writer) (moves : List Move) (next : Writer) : Prop where
  position : writer.sink.bytes.size + next.position = next.sink.bytes.size + writer.position
  emits : ∀ more word bytes, Emits next.packer.active more word bytes →
    ∃ word' bytes', Emits writer.packer.active (moves ++ more) word' bytes' ∧
      writer.outcome word' bytes' = next.outcome word bytes

variable {writer middle next : Writer} {moves more : List Move} {bytes : List UInt8}

theorem Along.refl (writer : Writer) : writer.Along [] writer :=
  ⟨rfl, fun _ word bytes h ↦ ⟨word, bytes, h, rfl⟩⟩

theorem Along.trans (h : writer.Along moves middle) (hmore : middle.Along more next) :
    writer.Along (moves ++ more) next := by
  constructor
  · have hfirst := h.position
    have hsecond := hmore.position
    omega
  · intro last word bytes hlast
    obtain ⟨word', bytes', hemits, houtcome⟩ := hmore.emits last word bytes hlast
    obtain ⟨word'', bytes'', hemits', houtcome'⟩ := h.emits _ word' bytes' hemits
    rw [← List.append_assoc] at hemits'
    exact ⟨word'', bytes'', hemits', houtcome'.trans houtcome⟩

/-! ## Sending bytes -/

/-- The writer after some bytes, all of which the sink has taken. -/
def sent (writer : Writer) (bytes : List UInt8) : Writer :=
  { writer with
    sink := { writer.sink with bytes := writer.sink.bytes ++ bytes }
    position := writer.position + bytes.length }

theorem sendAll_eq_ok (h : sendAll bytes writer = .ok () next) : next = writer.sent bytes := by
  rw [sendAll, run_bind_eq_ok_iff] at h
  obtain ⟨count, middle, hsend, h⟩ := h
  obtain ⟨⟨written, capacity⟩, position, packer⟩ := writer
  obtain ⟨rfl, rfl⟩ : _ = count ∧ _ = middle := by
    simpa [send, Sink.accept] using hsend
  split at h
  · cases h
  · next hcount =>
    obtain ⟨-, rfl⟩ := run_pure_eq_ok_iff.1 h
    have hfitting : Sink.fitting ⟨written, capacity⟩ bytes = bytes := by
      cases capacity with
      | none => rfl
      | some capacity =>
        refine List.take_of_length_le ?_
        rw [Sink.fitting, List.length_take] at hcount
        omega
    rw [hfitting]
    rfl

theorem flushBits_eq_ok (h : flushBits writer = .ok () next) :
    next = { writer with packer := {} }.sent writer.packer.pending := by
  rw [flushBits, run_bind_eq_ok_iff] at h
  obtain ⟨pending, middle, hpending, h⟩ := h
  obtain ⟨rfl, rfl⟩ : writer.packer.pending = pending ∧ { writer with packer := {} } = middle := by
    simpa [takePending] using hpending
  exact sendAll_eq_ok h

theorem eq_of_sendAll_eq_error {error : Error} (h : sendAll bytes writer = .error error next) :
    error = .io .writeZero := by
  obtain hsend | ⟨_, _, _, hthrow⟩ := run_bind_eq_error_iff.1 h
  · cases hsend
  · split at hthrow
    · exact (run_throw_eq_error_iff.1 hthrow).1.symm
    · cases hthrow

/-- The pending container can only fail to go out because there is no room. -/
theorem eq_of_flushBits_eq_error {error : Error} (h : flushBits writer = .error error next) :
    error = .io .writeZero := by
  obtain htake | ⟨_, _, _, hsend⟩ := run_bind_eq_error_iff.1 h
  · cases htake
  · exact eq_of_sendAll_eq_error hsend

theorem packer_of_sendAll_eq_error {error : Error} (h : sendAll bytes writer = .error error next) :
    next.packer = writer.packer := by
  obtain hsend | ⟨_, _, hsend, hthrow⟩ := run_bind_eq_error_iff.1 h
  · cases hsend
  · cases hsend
    split at hthrow
    · obtain ⟨-, rfl⟩ := run_throw_eq_error_iff.1 hthrow
      rfl
    · cases hthrow

/-- A container that does not go out is lost. -/
theorem packer_of_flushBits_eq_error {error : Error} (h : flushBits writer = .error error next) :
    next.packer = {} := by
  obtain htake | ⟨_, _, htake, hsend⟩ := run_bind_eq_error_iff.1 h
  · cases htake
  · cases htake
    exact packer_of_sendAll_eq_error hsend

/-! ## Operations -/

theorem pending_eq (packer : Packer) :
    packer.pending = pendingBytes packer.active (pendingWord packer.active) := by
  cases h : packer.active <;> simp [Packer.pending, pendingBytes, pendingWord, h, Container.bytes]

/-- Some bytes after the pending container. -/
theorem along_bytes (writer : Writer) (bytes : List UInt8) :
    writer.Along [.bytes bytes]
      (({ writer with packer := {} }.sent writer.packer.pending).sent bytes) := by
  constructor
  · simp [sent, ← Array.length_toList]
    omega
  · intro more word rest h
    refine ⟨pendingWord writer.packer.active, bytes ++ rest, .bytes h, ?_⟩
    simp [outcome, sent, pending_eq, pendingBytes]

theorem along_of_flushBits (h : flushBits writer = .ok () next) :
    writer.Along [.bytes []] next := by
  have hbytes := along_bytes writer []
  rw [flushBits_eq_ok h]
  simpa [sent] using hbytes

theorem along_of_writeBytes (h : writeBytes bytes writer = .ok () next) :
    writer.Along [.bytes bytes] next := by
  rw [writeBytes, run_bind_eq_ok_iff] at h
  obtain ⟨_, middle, hflush, h⟩ := h
  rw [sendAll_eq_ok h, flushBits_eq_ok hflush]
  exact along_bytes writer bytes

theorem along_of_writeZeros {count : Nat} (h : writeZeros count writer = .ok () next) :
    writer.Along [.bytes (List.replicate count 0)] next := by
  rw [writeZeros, sendZeros_eq] at h
  exact along_of_writeBytes h

theorem pack_eq_ok {value width bits : Nat} {swap : Bool}
    (h : pack value width bits swap writer = .ok () next) :
    ∃ bytes packer, writer.packer.pack value width bits swap = .ok (bytes, packer) ∧
      next = { writer.sent bytes with packer := packer } := by
  unfold pack at h
  rw [run_bind_eq_ok_iff] at h
  obtain ⟨_, _, ⟨⟩, h⟩ := h
  cases hpack : writer.packer.pack value width bits swap with
  | error error =>
    rw [hpack] at h
    cases h
  | ok result =>
    obtain ⟨bytes, packer⟩ := result
    rw [hpack] at h
    dsimp only at h
    refine ⟨bytes, packer, rfl, ?_⟩
    split at h
    · next hempty =>
      obtain rfl := List.isEmpty_iff.1 hempty
      cases h
      simp [sent]
    · rw [run_bind_eq_ok_iff] at h
      obtain ⟨_, _, ⟨⟩, h⟩ := h
      rw [run_bind_eq_ok_iff] at h
      obtain ⟨_, middle, hsend, h⟩ := h
      obtain rfl := sendAll_eq_ok hsend
      cases h
      rfl

/-- What a packer cannot take is not packed, and nothing has happened then. -/
theorem pack_of_pack_eq_error {value width bits : Nat} {swap : Bool}
    {error : DataError} (h : writer.packer.pack value width bits swap = .error error) :
    pack value width bits swap writer = .error (.data error) writer := by
  unfold pack
  refine run_bind_eq_error_iff.2 (.inr ⟨writer, writer, rfl, ?_⟩)
  rw [h]
  rfl

/-- Bits are not packed because they cannot be, and then nothing has happened, or because the
container before them does not go out, and then it is lost. -/
theorem pack_eq_error {value width bits : Nat} {swap : Bool} {error : Error}
    (h : pack value width bits swap writer = .error error next) :
    (∃ fault, writer.packer.pack value width bits swap = .error fault ∧ error = .data fault ∧
      next = writer) ∨ (error = .io .writeZero ∧ next.packer = {}) := by
  unfold pack at h
  obtain h | ⟨_, _, ⟨⟩, h⟩ := run_bind_eq_error_iff.1 h
  · cases h
  cases hpack : writer.packer.pack value width bits swap with
  | error fault =>
    rw [hpack] at h
    obtain ⟨rfl, rfl⟩ := run_throw_eq_error_iff.1 h
    exact .inl ⟨fault, rfl, rfl, rfl⟩
  | ok result =>
    rw [hpack] at h
    dsimp only at h
    split at h
    · cases h
    · obtain h | ⟨_, _, ⟨⟩, h⟩ := run_bind_eq_error_iff.1 h
      · cases h
      obtain h | ⟨_, _, -, h⟩ := run_bind_eq_error_iff.1 h
      · exact .inr ⟨eq_of_sendAll_eq_error h, packer_of_sendAll_eq_error h⟩
      · cases h

theorem along_of_pack {value width bits : Nat} {swap : Bool} (hbits : bits ≠ 0)
    (h : pack value width bits swap writer = .ok () next) :
    writer.Along [.bits value width bits swap] next := by
  obtain ⟨bytes, packer, hpack, rfl⟩ := pack_eq_ok h
  obtain ⟨hcheck, hvalue, ⟨active, hactive, hroom, hswap, rfl, rfl⟩ | ⟨hfull, rfl, rfl⟩⟩ :=
    Packer.pack_eq_ok hbits hpack
  · constructor
    · simp [sent]
    · intro more word bytes h
      refine ⟨word, bytes, ?_, ?_⟩
      · rw [hactive]
        exact .add hcheck hvalue hroom hswap h
      · simp [outcome, sent, hactive, pendingBytes, Container.add]
  · constructor
    · simp [sent, ← Array.length_toList]
      omega
    · intro more word bytes h
      refine ⟨_, _, .start hcheck hvalue hfull h, ?_⟩
      simp [outcome, sent, pending_eq, pendingBytes, Container.start]

/-! ## Finishing -/

/-- A writer that has gone along some moves and ends has written the bytes that they come to. -/
theorem exists_emits_of_finish {sink : Sink} {last : Writer} {count : Nat}
    (halong : Along { sink := sink } moves next) (h : finish next = .ok count last) :
    ∃ word bytes, Emits none (moves ++ [.bytes []]) word bytes ∧
      last.sink.bytes.toList = sink.bytes.toList ++ bytes ∧ count = bytes.length := by
  rw [finish, run_bind_eq_ok_iff] at h
  obtain ⟨_, last, hflush, h⟩ := h
  cases h
  have hend := halong.trans (along_of_flushBits hflush)
  obtain ⟨word, bytes, hemits, houtcome⟩ := hend.emits [] _ _ (.done _)
  rw [List.append_nil] at hemits
  have hidle : last.packer.active = none := by
    rw [flushBits_eq_ok hflush]
    rfl
  have hbytes : last.sink.bytes.toList = sink.bytes.toList ++ bytes := by
    simpa [outcome, hidle, pendingBytes] using houtcome.symm
  refine ⟨word, bytes, hemits, hbytes, ?_⟩
  have hposition := hend.position
  have hlength := congrArg List.length hbytes
  simp only [Array.length_toList, List.length_append] at hlength
  change sink.bytes.size + last.position = last.sink.bytes.size + 0 at hposition
  omega

end Writer

end WireFormat
