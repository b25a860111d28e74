import WireFormat.Proofs.Stream.Making
import WireFormat.Proofs.Stream.Transfer

/-!
# Packing and unpacking step by step

A container that has no room for a field goes out, and then the field starts a new one.  One that
does not hold a field is replaced by the next one.  Whether a field agrees with its container about
the order of the bytes can be asked when that has happened, or before anything happens: a container
that has just been started or read has the order of the field that it was started or read for.

* `Writer.pack_eq_packInSteps` — packing, with the question asked last;
* `Reader.unpack_eq_unpackInSteps` — unpacking, with the question asked last.
-/

namespace WireFormat

/-- A field that starts a container is put into one without any bits. -/
theorem Container.start_eq_add {value width bits : Nat} {swap : Bool} :
    start value width bits swap = (start 0 width 0 swap).add value bits := by
  simp [start, add]

/-! ## Packing -/

namespace Writer

variable {writer : Writer} {value width bits : Nat} {swap : Bool}

/-- Sends the container out if there is no room in it. -/
def makeRoom (width bits : Nat) : WriteM Unit := do
  if (← get).packer.active.any fun active ↦ !active.hasRoom width bits then
    flushBits

/-- Puts bits into the container that is there, or into a new one. -/
def putBits (value width bits : Nat) (swap : Bool) : WriteM Unit := do
  let container := (← get).packer.active.getD (.start 0 width 0 swap)
  if container.swap ≠ swap then
    throw (.data .containerSwapMismatch)
  modify fun writer ↦ { writer with packer := ⟨some (container.add value bits)⟩ }

/-- Packing step by step.  A container that has no room goes out, and only then is the one that is
there asked about the order of its bytes. -/
def packInSteps (value width bits : Nat) (swap : Bool) : WriteM Unit := do
  match Container.check width bits with
  | .error fault => throw (.data fault)
  | .ok () => pure ()
  if 2 ^ bits ≤ value then
    throw (.data (.bitOverflow value bits))
  if bits = 0 then
    flushBits
  else
    makeRoom width bits
    putBits value width bits swap

theorem sendAll_nil (writer : Writer) : sendAll [] writer = .ok () writer := by
  obtain ⟨⟨written, capacity⟩, position, packer⟩ := writer
  cases capacity <;>
    simp [sendAll, send, Sink.accept, Sink.fitting, bind, EStateM.bind, pure, EStateM.pure]

/-- What is pending goes out before something else is. -/
theorem pack_of_pending {packer : Packer}
    (h : writer.packer.pack value width bits swap = .ok (writer.packer.pending, packer)) :
    pack value width bits swap writer = (do
      flushBits
      modify fun writer ↦ { writer with packer := packer } : WriteM Unit) writer := by
  unfold pack
  rw [run_get_bind, h]
  dsimp only
  split
  · next hempty =>
    have hpending : writer.packer.pending = [] := List.isEmpty_iff.1 hempty
    have hflush : flushBits writer = .ok () { writer with packer := {} } := by
      refine run_bind_eq_ok_iff.2 ⟨[], { writer with packer := {} }, ?_, sendAll_nil _⟩
      rw [← hpending]
      rfl
    change _ = EStateM.bind flushBits _ writer
    rw [EStateM.bind, hflush]
    rfl
  · rfl

/-- Where there is no container, a new one is started. -/
theorem putBits_of_active_eq_none (h : writer.packer.active = none) :
    putBits value width bits swap writer =
      .ok () { writer with packer := ⟨some (.start value width bits swap)⟩ } := by
  obtain ⟨sink, position, ⟨active⟩⟩ := writer
  obtain rfl := h
  rw [Container.start_eq_add]
  change (if swap ≠ swap then _ else _ : WriteM Unit) _ = _
  rw [if_neg (not_not_intro rfl)]
  rfl

/-- Room is made by sending out a container without room, if there is one. -/
theorem makeRoom_of_full
    (h : ∀ active ∈ writer.packer.active, active.hasRoom width bits = false) :
    makeRoom width bits writer = flushBits writer := by
  obtain ⟨sink, position, ⟨active⟩⟩ := writer
  cases active with
  | none => exact (sendAll_nil _).symm
  | some active =>
    change (if (!active.hasRoom width bits) = true then flushBits else pure ()) _ = _
    rw [h active rfl]
    rfl

/-- Nothing has to be done for room that is there. -/
theorem makeRoom_of_hasRoom {active : Container} (hactive : writer.packer.active = some active)
    (h : active.hasRoom width bits = true) : makeRoom width bits writer = .ok () writer := by
  obtain ⟨sink, position, ⟨_⟩⟩ := writer
  obtain rfl := hactive
  change (if (!active.hasRoom width bits) = true then flushBits else pure ()) _ = _
  rw [h]
  rfl

theorem pack_zero_eq (hcheck : Container.check width 0 = .ok ()) (hvalue : value < 2 ^ 0) :
    pack value width 0 swap writer = flushBits writer := by
  have hpack : writer.packer.pack value width 0 swap = .ok (writer.packer.pending, {}) := by
    rw [Packer.pack, hcheck, if_neg (Nat.not_le.2 hvalue)]
    rfl
  rw [pack_of_pending hpack]
  change EStateM.bind flushBits _ writer = flushBits writer
  rw [EStateM.bind]
  cases hflush : flushBits writer with
  | ok _ next =>
    rw [flushBits_eq_ok hflush]
    rfl
  | error error next => rfl

section Steps

variable (hcheck : Container.check width bits = .ok ()) (hvalue : value < 2 ^ bits)
  (hbits : bits ≠ 0)
include hcheck hvalue hbits

theorem pack_of_full
    (hfull : ∀ active ∈ writer.packer.active, active.hasRoom width bits = false) :
    pack value width bits swap writer = (do
      makeRoom width bits
      putBits value width bits swap : WriteM Unit) writer := by
  rw [pack_of_pending (Packer.pack_of_full hcheck hvalue hbits hfull)]
  change EStateM.bind flushBits _ writer = EStateM.bind (makeRoom width bits) _ writer
  rw [EStateM.bind, EStateM.bind, makeRoom_of_full hfull]
  cases hflush : flushBits writer with
  | ok _ next =>
    rw [flushBits_eq_ok hflush]
    exact (putBits_of_active_eq_none rfl).symm
  | error error next => rfl

theorem pack_of_hasRoom {active : Container} (hactive : writer.packer.active = some active)
    (hroom : active.hasRoom width bits = true) :
    pack value width bits swap writer = (do
      makeRoom width bits
      putBits value width bits swap : WriteM Unit) writer := by
  change _ = EStateM.bind (makeRoom width bits) _ writer
  rw [EStateM.bind, makeRoom_of_hasRoom hactive hroom]
  obtain ⟨sink, position, ⟨_⟩⟩ := writer
  obtain rfl := hactive
  change _ = (if active.swap ≠ swap then _ else _ : WriteM Unit) _
  by_cases hswap : active.swap = swap
  · rw [if_neg (not_not_intro hswap)]
    unfold pack
    rw [run_get_bind, Packer.pack_of_hasRoom hcheck hvalue hbits hroom hswap]
    rfl
  · have hpack : Packer.pack ⟨some active⟩ value width bits swap =
        .error .containerSwapMismatch := by
      rw [Packer.pack, hcheck]
      change (if _ then _ else _) = _
      rw [if_neg (Nat.not_le.2 hvalue), if_neg hbits]
      dsimp only
      rw [if_pos hroom, if_neg hswap]
      rfl
    rw [if_pos hswap]
    exact pack_of_pack_eq_error hpack

end Steps

/-- The order of the bytes can be compared before a container goes out, since the one that is
started after that has the order that it is started with. -/
theorem pack_eq_packInSteps (value width bits : Nat) (swap : Bool) :
    pack value width bits swap = packInSteps value width bits swap := by
  funext writer
  cases hcheck : Container.check width bits with
  | error fault =>
    have hpack : writer.packer.pack value width bits swap = .error fault := by
      rw [Packer.pack, hcheck]
      rfl
    rw [pack_of_pack_eq_error hpack, packInSteps, hcheck]
    rfl
  | ok _ =>
    by_cases hvalue : 2 ^ bits ≤ value
    · have hpack : writer.packer.pack value width bits swap = .error (.bitOverflow value bits) := by
        rw [Packer.pack, hcheck, if_pos hvalue]
        rfl
      rw [pack_of_pack_eq_error hpack, packInSteps, hcheck, if_pos hvalue]
      rfl
    rw [packInSteps, hcheck, if_neg hvalue]
    have hvalue := Nat.not_le.1 hvalue
    by_cases hbits : bits = 0
    · subst hbits
      exact pack_zero_eq hcheck hvalue
    rw [if_neg hbits]
    by_cases hfull : ∀ active ∈ writer.packer.active, active.hasRoom width bits = false
    · exact pack_of_full hcheck hvalue hbits hfull
    · push Not at hfull
      obtain ⟨active, hactive, hroom⟩ := hfull
      exact pack_of_hasRoom hcheck hvalue hbits hactive (eq_true_of_ne_false hroom)

end Writer

/-! ## Unpacking -/

namespace Reader

variable {reader : Reader} {width bits : Nat} {swap : Bool}

/-- Reads a container if the one that is there does not hold enough bits. -/
def refill (width bits : Nat) (swap : Bool) : ReadM Unit := do
  if (← get).active.all fun active ↦ !active.holds width bits then
    let bytes ← receiveAll width
    modify fun reader ↦ { reader with active := some (.load bytes swap) }

/-- Takes bits from the container that is there. -/
def takeBits (bits : Nat) (swap : Bool) : ReadM Nat := do
  match (← get).active with
  | none => return 0
  | some active =>
    if active.swap ≠ swap then
      throw (.data .containerSwapMismatch)
    let (value, active) := active.peel bits
    modify fun reader ↦ { reader with active := some active }
    return value

/-- Unpacking step by step.  A container that does not hold enough bits is replaced by the next one,
and only then is the one that is there asked about the order of its bytes. -/
def unpackInSteps (width bits : Nat) (swap : Bool) : ReadM Nat := do
  match Container.check width bits with
  | .error fault => throw (.data fault)
  | .ok () => pure ()
  if bits = 0 then
    resetBits
    return 0
  else
    refill width bits swap
    takeBits bits swap

theorem refill_of_holds {active : Container} (hactive : reader.active = some active)
    (h : active.holds width bits = true) : refill width bits swap reader = .ok () reader := by
  obtain ⟨source, position, _⟩ := reader
  obtain rfl := hactive
  change (if (!active.holds width bits) = true then _ else pure () : ReadM Unit) _ = _
  rw [h]
  rfl

theorem refill_of_filter_eq_none (h : reader.active.filter (·.holds width bits) = none) :
    refill width bits swap reader = (do
      let bytes ← receiveAll width
      modify fun reader ↦ { reader with active := some (.load bytes swap) } : ReadM Unit)
        reader := by
  obtain ⟨source, position, active⟩ := reader
  change (if (active.all fun active ↦ !active.holds width bits) = true then _ else pure () :
    ReadM Unit) _ = _
  rw [if_pos]
  rw [Option.all_eq_true]
  intro own hown
  rw [Bool.not_eq_true', Bool.eq_false_iff]
  exact Option.filter_eq_none_iff.1 h own hown

/-- Bits are taken from a container in its own order. -/
theorem takeBits_of_swap_eq {active : Container} (hactive : reader.active = some active)
    (hswap : active.swap = swap) : takeBits bits swap reader =
      .ok (active.peel bits).1 { reader with active := some (active.peel bits).2 } := by
  obtain ⟨source, position, _⟩ := reader
  obtain rfl := hactive
  change (if active.swap ≠ swap then _ else _ : ReadM Nat) _ = _
  rw [if_neg (not_not_intro hswap)]
  rfl

/-- The order of the bytes can be compared before a container is read, since one that is read has
the order that it is read with. -/
theorem unpack_eq_unpackInSteps (width bits : Nat) (swap : Bool) :
    Reader.unpack width bits swap = unpackInSteps width bits swap := by
  funext reader
  rw [unpackInSteps]
  cases hcheck : Container.check width bits with
  | error fault =>
    rw [Reader.unpack, hcheck]
    rfl
  | ok _ =>
    by_cases hbits : bits = 0
    · subst hbits
      rw [unpack_zero hcheck]
      rfl
    · rw [Reader.unpack, hcheck, if_neg hbits, if_neg hbits]
      change (get >>= _ : ReadM Nat) reader = EStateM.bind (refill width bits swap) _ _
      rw [run_get_bind]
      cases hfilter : reader.active.filter (·.holds width bits) with
      | some active =>
        obtain ⟨hactive, hholds⟩ := Option.filter_eq_some_iff.1 hfilter
        rw [EStateM.bind, refill_of_holds hactive hholds]
        obtain ⟨source, position, _⟩ := reader
        obtain rfl := hactive
        rfl
      | none =>
        have hrefill : refill width bits swap reader = _ := refill_of_filter_eq_none hfilter
        change EStateM.bind (receiveAll width) _ reader = _
        change _ = EStateM.bind (receiveAll width) _ reader at hrefill
        rw [EStateM.bind] at hrefill
        rw [EStateM.bind, EStateM.bind, hrefill]
        cases receiveAll width reader with
        | ok bytes next =>
          have htake : takeBits bits swap { next with active := some (.load bytes swap) } = _ :=
            takeBits_of_swap_eq rfl rfl
          exact htake.symm
        | error error next => rfl

end Reader

end WireFormat
