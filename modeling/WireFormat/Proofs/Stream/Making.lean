import WireFormat.Proofs.Stream.Writing

/-!
# Making moves

`Writer.Due` says what a writer whose sink has no limit comes to if it makes some moves.  An
operation makes the moves that it stands for: it succeeds, and what is due afterwards are the moves
that follow.  `Writer.Makes` says this of operations that are built from these.
-/

namespace WireFormat

/-- A field that fits the pending container, in the order of its bytes, is put into it. -/
theorem Packer.pack_of_hasRoom {active : Container} {value width bits : Nat} {swap : Bool}
    (hcheck : Container.check width bits = .ok ()) (hvalue : value < 2 ^ bits) (hbits : bits ≠ 0)
    (hroom : active.hasRoom width bits = true) (hswap : active.swap = swap) :
    Packer.pack ⟨some active⟩ value width bits swap = .ok ([], ⟨some (active.add value bits)⟩) := by
  rw [pack, hcheck]
  change (if _ then _ else _) = _
  rw [if_neg (Nat.not_le.2 hvalue), if_neg hbits]
  dsimp only
  rw [if_pos hroom, if_pos hswap]
  rfl

/-- A field that does not fit the pending container sends it out. -/
theorem Packer.pack_of_full {packer : Packer} {value width bits : Nat} {swap : Bool}
    (hcheck : Container.check width bits = .ok ()) (hvalue : value < 2 ^ bits) (hbits : bits ≠ 0)
    (hfull : ∀ active ∈ packer.active, active.hasRoom width bits = false) :
    packer.pack value width bits swap =
      .ok (packer.pending, ⟨some (.start value width bits swap)⟩) := by
  rw [pack, hcheck]
  change (if _ then _ else _) = _
  rw [if_neg (Nat.not_le.2 hvalue), if_neg hbits]
  obtain ⟨active⟩ := packer
  cases active with
  | none => rfl
  | some active =>
    dsimp only
    rw [hfull active rfl]
    rfl

namespace Writer

variable {writer next : Writer} {bytes all : List UInt8} {moves : List Move}

/-- The sink takes everything, and holds all of some bytes if the writer makes some moves. -/
def Due (moves : List Move) (all : List UInt8) (writer : Writer) : Prop :=
  writer.sink.capacity = none ∧ ∃ word bytes, Emits writer.packer.active moves word bytes ∧
    writer.outcome word bytes = all

/-- Wherever the given moves are due, an operation succeeds with a result and has made them. -/
def Makes {α : Type} (action : WriteM α) (moves : List Move) (result : α) : Prop :=
  ∀ (more : List Move) (all : List UInt8) (writer : Writer), Due (moves ++ more) all writer →
    ∃ next, action writer = .ok result next ∧ Due more all next

namespace Makes

variable {α β : Type} {action : WriteM α} {f : α → WriteM β} {a : α} {b : β} {more : List Move}

theorem pure (a : α) : Makes (Pure.pure a) [] a := fun _ _ writer h ↦ ⟨writer, rfl, h⟩

theorem bind (h : Makes action moves a) (hmore : Makes (f a) more b) :
    Makes (action >>= f) (moves ++ more) b := by
  intro last all writer hdue
  rw [List.append_assoc] at hdue
  obtain ⟨middle, hfirst, hmiddle⟩ := h _ _ _ hdue
  obtain ⟨next, hsecond, hnext⟩ := hmore _ _ _ hmiddle
  exact ⟨next, run_bind_eq_ok_iff.2 ⟨a, middle, hfirst, hsecond⟩, hnext⟩

/-- How errors are reworded does not matter. -/
theorem adaptExcept (h : Makes action moves a) (f : Error → Error) :
    Makes (EStateM.adaptExcept f action) moves a := by
  intro more all writer hdue
  obtain ⟨next, hmake, hnext⟩ := h more all writer hdue
  exact ⟨next, run_adaptExcept_eq_ok_iff.2 hmake, hnext⟩

end Makes

/-! ## Bytes -/

theorem sendAll_of_capacity_eq_none (writer : Writer) (h : writer.sink.capacity = none)
    (bytes : List UInt8) : sendAll bytes writer = .ok () (writer.sent bytes) := by
  obtain ⟨⟨written, capacity⟩, position, packer⟩ := writer
  obtain rfl : capacity = none := h
  refine run_bind_eq_ok_iff.2 ⟨bytes.length, sent ⟨⟨written, none⟩, position, packer⟩ bytes, rfl, ?_⟩
  rw [if_neg (Nat.lt_irrefl _)]
  rfl

theorem flushBits_of_capacity_eq_none (h : writer.sink.capacity = none) :
    flushBits writer = .ok () ({ writer with packer := {} }.sent writer.packer.pending) :=
  run_bind_eq_ok_iff.2 ⟨writer.packer.pending, { writer with packer := {} }, rfl,
    sendAll_of_capacity_eq_none { writer with packer := {} } h _⟩

/-- Some bytes after the pending container are made by sending both. -/
theorem Due.sent (h : Due (.bytes bytes :: moves) all writer) :
    Due moves all (({ writer with packer := {} }.sent writer.packer.pending).sent bytes) := by
  obtain ⟨sink, position, ⟨active⟩⟩ := writer
  obtain ⟨hcapacity, word, rest, hemits, rfl⟩ := h
  cases hemits with
  | @bytes _ _ _ word rest hrest =>
    refine ⟨hcapacity, word, rest, hrest, ?_⟩
    simp [outcome, Writer.sent, pending_eq, pendingBytes]

theorem makes_writeBytes (bytes : List UInt8) : Makes (writeBytes bytes) [.bytes bytes] () := by
  intro more all writer hdue
  refine ⟨_, run_bind_eq_ok_iff.2 ⟨(), _, flushBits_of_capacity_eq_none hdue.1, ?_⟩, hdue.sent⟩
  exact sendAll_of_capacity_eq_none ({ writer with packer := {} }.sent writer.packer.pending) hdue.1
    bytes

theorem makes_flushBits : Makes flushBits [.bytes []] () := by
  intro more all writer hdue
  refine ⟨_, flushBits_of_capacity_eq_none hdue.1, ?_⟩
  simpa [Writer.sent] using hdue.sent

theorem makes_writeZeros (count : Nat) :
    Makes (writeZeros count) [.bytes (List.replicate count 0)] () := by
  rw [writeZeros, sendZeros_eq]
  exact makes_writeBytes _

/-! ## Bits -/

variable {value width bits : Nat} {swap : Bool}

theorem pack_of_pack {packer : Packer} (hcapacity : writer.sink.capacity = none)
    (h : writer.packer.pack value width bits swap = .ok (bytes, packer)) :
    pack value width bits swap writer = .ok () { writer.sent bytes with packer := packer } := by
  unfold pack
  refine run_bind_eq_ok_iff.2 ⟨writer, writer, rfl, ?_⟩
  rw [h]
  dsimp only
  split
  · next hempty =>
    obtain rfl := List.isEmpty_iff.1 hempty
    simp [sent]
  · refine run_bind_eq_ok_iff.2 ⟨(), { writer with packer := {} }, rfl, ?_⟩
    refine run_bind_eq_ok_iff.2 ⟨(), { writer with packer := {} }.sent bytes, ?_, rfl⟩
    exact sendAll_of_capacity_eq_none { writer with packer := {} } hcapacity bytes

theorem makes_pack (hbits : bits ≠ 0) :
    Makes (pack value width bits swap) [.bits value width bits swap] () := by
  rintro more all writer ⟨hcapacity, word, rest, hemits, houtcome⟩
  obtain ⟨sink, position, ⟨active⟩⟩ := writer
  cases hemits with
  | @add active _ _ _ _ _ _ _ hcheck hvalue hroom hswap hrest =>
    refine ⟨_, pack_of_pack hcapacity (Packer.pack_of_hasRoom hcheck hvalue hbits hroom hswap),
      hcapacity, word, rest, hrest, ?_⟩
    rw [← houtcome]
    simp [outcome, sent, pendingBytes, Container.add]
  | @start _ _ _ _ _ _ first rest hcheck hvalue hfull hrest =>
    refine ⟨_, pack_of_pack hcapacity (Packer.pack_of_full hcheck hvalue hbits hfull), hcapacity,
      first, rest, hrest, ?_⟩
    rw [← houtcome]
    simp [outcome, sent, pending_eq, pendingBytes, Container.start]

end Writer

end WireFormat
