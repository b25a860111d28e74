import WireFormat.Proofs.Stream.Making
import WireFormat.Proofs.Stream.Reading

/-!
# What is transferred

A writer sends out a container late, when something comes that it has no room for, and a reader
takes it in early, before the first of its bits.  In spite of this, whatever a writer can do is
undone by the same operations of a reader in the same order.

* `Transfer`, `Request` — the operations of a writer, and those of a reader that mirror them;
* `Transfer.along_of_write`, `Transfer.reads_mirror` — both are the same moves;
* `Request.counts_run` — a reader counts the bytes that it takes;
* `Transfer.runAll_writeAll` — all that has been written is read back.
-/

namespace WireFormat

/-- An operation of a writer. -/
inductive Transfer where
  | pack (value width bits : Nat) (swap : Bool)
  | raw (width number : Nat) (swap : Bool)
  | bytes (own : List UInt8)
  | zeros (count : Nat)
  | flush
deriving DecidableEq, Repr

/-- An operation of a reader.  It does not know what has been written. -/
inductive Request where
  | unpack (width bits : Nat) (swap : Bool)
  | raw (width : Nat) (swap : Bool)
  | bytes (count : Nat)
  | skip (count : Nat)
  | reset
deriving DecidableEq, Repr

/-- What a reader is answered. -/
inductive Received where
  | number (value : Nat)
  | bytes (own : List UInt8)
  | nothing
deriving DecidableEq, Repr

/-- Carries a request out. -/
def Request.run : Request → ReadM Received
  | unpack width bits swap => return .number (← Reader.unpack width bits swap)
  | raw width swap => return .number (← Reader.readRaw width swap)
  | bytes count => return .bytes (← Reader.readBytes count)
  | skip count => do
    Reader.skip count
    return .nothing
  | reset => do
    Reader.resetBits
    return .nothing

/-- Carries some requests out, one after the other. -/
def Request.runAll : List Request → ReadM (List Received)
  | [] => return []
  | request :: rest => do
    let received ← request.run
    return received :: (← runAll rest)

namespace Transfer

/-- Makes a transfer. -/
def write : Transfer → WriteM Unit
  | pack value width bits swap => Writer.pack value width bits swap
  | raw width number swap => Writer.writeRaw width number swap
  | bytes own => Writer.writeBytes own
  | zeros count => Writer.writeZeros count
  | flush => Writer.flushBits

/-- Makes some transfers, one after the other. -/
def writeAll : List Transfer → WriteM Unit
  | [] => pure ()
  | transfer :: rest => do
    transfer.write
    writeAll rest

/-- The operation that reads what has been written. -/
def mirror : Transfer → Request
  | pack _ width bits swap => .unpack width bits swap
  | raw width _ swap => .raw width swap
  | bytes own => .bytes own.length
  | zeros count => .skip count
  | flush => .reset

/-- What has been written. -/
def received : Transfer → Received
  | pack value _ _ _ => .number value
  | raw _ number _ => .number number
  | bytes own => .bytes own
  | zeros _ | flush => .nothing

/-- Whether a raw number fits its width.  Whether bits fit theirs is found out when they are
packed. -/
def Fits : Transfer → Prop
  | raw width number _ => number < 2 ^ (8 * width)
  | _ => True

instance : (transfer : Transfer) → Decidable transfer.Fits
  | raw width number _ => inferInstanceAs (Decidable (number < 2 ^ (8 * width)))
  | pack _ _ _ _ | bytes _ | zeros _ | flush => inferInstanceAs (Decidable True)

/-- The moves of a transfer.  No bits at all end the container. -/
def moves : Transfer → List Move
  | pack value width bits swap => if bits = 0 then [.bytes []] else [.bits value width bits swap]
  | raw width number swap => [.bytes (wireBytes width number swap)]
  | bytes own => [.bytes own]
  | zeros count => [.bytes (List.replicate count 0)]
  | flush => [.bytes []]

end Transfer

/-! ## Writing -/

section

variable {writer next : Writer} {value width : Nat} {swap : Bool} {transfer : Transfer}

theorem Packer.pack_zero_eq_ok {packer : Packer} {result : List UInt8 × Packer}
    (h : packer.pack value width 0 swap = .ok result) :
    Container.check width 0 = .ok () ∧ value = 0 ∧ result = (packer.pending, {}) := by
  rw [pack, bind_eq_ok_iff] at h
  obtain ⟨_, hcheck, h⟩ := h
  dsimp only at h
  split at h
  · cases h
  · next hvalue =>
    cases h
    exact ⟨hcheck, by simpa using hvalue, rfl⟩

/-- A writer that packs no bits ends the container. -/
theorem Writer.along_of_pack_zero (h : pack value width 0 swap writer = .ok () next) :
    Container.check width 0 = .ok () ∧ value = 0 ∧ writer.Along [.bytes []] next := by
  obtain ⟨bytes, packer, hpack, rfl⟩ := pack_eq_ok h
  obtain ⟨hcheck, rfl, hresult⟩ := Packer.pack_zero_eq_ok hpack
  obtain ⟨rfl, rfl⟩ := Prod.mk.inj hresult
  refine ⟨hcheck, rfl, ?_⟩
  simpa [sent] using writer.along_bytes []

/-- A transfer goes along its moves. -/
theorem Transfer.along_of_write (h : transfer.write writer = .ok () next) :
    writer.Along transfer.moves next := by
  cases transfer with
  | pack value width bits swap =>
    rw [moves]
    split
    · next hbits =>
      subst hbits
      exact (Writer.along_of_pack_zero h).2.2
    · next hbits => exact Writer.along_of_pack hbits h
  | raw width number swap => exact Writer.along_of_writeBytes h
  | bytes own => exact Writer.along_of_writeBytes h
  | zeros count => exact Writer.along_of_writeZeros h
  | flush => exact Writer.along_of_flushBits h

theorem Writer.capacity_of_writeBytes {bytes : List UInt8}
    (h : writeBytes bytes writer = .ok () next) : next.sink.capacity = writer.sink.capacity := by
  rw [writeBytes, run_bind_eq_ok_iff] at h
  obtain ⟨_, middle, hflush, h⟩ := h
  rw [sendAll_eq_ok h, flushBits_eq_ok hflush]
  rfl

/-- Transfers do not change what the sink can hold. -/
theorem Transfer.capacity_of_write (h : transfer.write writer = .ok () next) :
    next.sink.capacity = writer.sink.capacity := by
  cases transfer with
  | pack value width bits swap =>
    obtain ⟨bytes, packer, -, rfl⟩ := Writer.pack_eq_ok h
    rfl
  | raw width number swap => exact Writer.capacity_of_writeBytes h
  | bytes own => exact Writer.capacity_of_writeBytes h
  | zeros count =>
    rw [write, Writer.writeZeros, Writer.sendZeros_eq] at h
    exact Writer.capacity_of_writeBytes h
  | flush =>
    obtain rfl := Writer.flushBits_eq_ok h
    rfl

end

/-! ## Reading -/

/-- A reader that takes no bits drops what is left of the container. -/
theorem Reader.unpack_zero {width : Nat} {swap : Bool}
    (hcheck : Container.check width 0 = .ok ()) : unpack width 0 swap = (do
      resetBits
      return 0) := by
  rw [unpack, hcheck]
  rfl

theorem Reader.reads_unpack_zero {width : Nat} {swap : Bool}
    (hcheck : Container.check width 0 = .ok ()) : Reads (unpack width 0 swap) [.bytes []] 0 := by
  rw [unpack_zero hcheck]
  exact reads_resetBits.bind_nil (.pure 0)

/-- What has been transferred is read back from the moves of the transfer. -/
theorem Transfer.reads_mirror {transfer : Transfer} {writer next : Writer} (hfits : transfer.Fits)
    (h : transfer.write writer = .ok () next) :
    Reader.Reads transfer.mirror.run transfer.moves transfer.received := by
  cases transfer with
  | pack value width bits swap =>
    rw [moves]
    split
    · next hbits =>
      subst hbits
      obtain ⟨hcheck, rfl, -⟩ := Writer.along_of_pack_zero h
      exact (Reader.reads_unpack_zero hcheck).bind_nil (.pure _)
    · next hbits => exact (Reader.reads_unpack hbits).bind_nil (.pure _)
  | raw width number swap =>
    have hlt : number < 256 ^ width := by
      rw [show 256 = 2 ^ 8 from rfl, ← Nat.pow_mul]
      exact hfits
    exact (Reader.reads_readRaw hlt swap).bind_nil (.pure _)
  | bytes own => exact (Reader.reads_readBytes own).bind_nil (.pure _)
  | zeros count =>
    have hskip := Reader.reads_skip (List.replicate count 0)
    rw [List.length_replicate] at hskip
    exact hskip.bind_nil (.pure _)
  | flush => exact Reader.reads_resetBits.bind_nil (.pure _)

/-! ## Counting -/

/-- An action that succeeds has counted the bytes that it has taken. -/
def Reader.Counts {α : Type} (action : ReadM α) : Prop :=
  ∀ reader value next, action reader = .ok value next →
    next.position + next.source.length = reader.position + reader.source.length

namespace Reader.Counts

variable {α β : Type} {action : ReadM α} {f : α → ReadM β}

theorem pure (a : α) : Counts (Pure.pure a) := by
  intro reader value next h
  obtain ⟨-, rfl⟩ := run_pure_eq_ok_iff.1 h
  rfl

theorem bind (h : Counts action) (hmore : ∀ a, Counts (f a)) : Counts (action >>= f) := by
  intro reader b last hrun
  obtain ⟨a, middle, haction, hf⟩ := run_bind_eq_ok_iff.1 hrun
  exact (hmore a middle b last hf).trans (h reader a middle haction)

theorem resetBits : Counts Reader.resetBits := by
  intro reader value next h
  cases h
  rfl

theorem receiveAll (count : Nat) : Counts (Reader.receiveAll count) := by
  refine bind ?_ fun bytes ↦ ?_
  · intro reader value next h
    cases h
    simp only [List.length_take, List.length_drop]
    omega
  · split
    · exact fun _ _ _ h ↦ (run_throw_ne_ok h).elim
    · exact pure bytes

theorem readBytes (count : Nat) : Counts (Reader.readBytes count) :=
  resetBits.bind fun _ ↦ receiveAll count

theorem unpack (width bits : Nat) (swap : Bool) : Counts (Reader.unpack width bits swap) := by
  intro reader value next h
  by_cases hbits : bits = 0
  · subst hbits
    unfold Reader.unpack at h
    cases hcheck : Container.check width 0 with
    | error fault =>
      rw [hcheck] at h
      cases h
    | ok _ =>
      rw [hcheck] at h
      cases h
      rfl
  · obtain ⟨-, ⟨active, -, -, -, rfl⟩ | ⟨-, bytes, middle, hreceive, -, rfl⟩⟩ :=
      (unpack_eq_ok_iff hbits).1 h
    · rfl
    · exact receiveAll width reader bytes middle hreceive

end Reader.Counts

theorem Request.counts_run (request : Request) : Reader.Counts request.run := by
  cases request with
  | unpack width bits swap => exact (Reader.Counts.unpack width bits swap).bind fun _ ↦ .pure _
  | raw width swap =>
    exact ((Reader.Counts.readBytes width).bind fun _ ↦ .pure _).bind fun _ ↦ .pure _
  | bytes count => exact (Reader.Counts.readBytes count).bind fun _ ↦ .pure _
  | skip count =>
    exact ((Reader.Counts.readBytes count).bind fun _ ↦ .pure _).bind fun _ ↦ .pure _
  | reset => exact Reader.Counts.resetBits.bind fun _ ↦ .pure _

theorem Request.counts_runAll (requests : List Request) : Reader.Counts (runAll requests) := by
  induction requests with
  | nil => exact .pure []
  | cons request rest ih => exact request.counts_run.bind fun _ ↦ ih.bind fun _ ↦ .pure _

/-! ## Transfers -/

namespace Transfer

variable {transfers : List Transfer} {writer next : Writer} {sink : Sink}

/-- Transfers that have been made are the same moves on both sides. -/
theorem exists_along_of_writeAll (hfits : ∀ transfer ∈ transfers, transfer.Fits)
    (h : writeAll transfers writer = .ok () next) : ∃ moves,
      writer.Along moves next ∧ next.sink.capacity = writer.sink.capacity ∧
      Reader.Reads (Request.runAll (transfers.map mirror)) moves (transfers.map received) := by
  induction transfers generalizing writer with
  | nil =>
    obtain ⟨-, rfl⟩ := run_pure_eq_ok_iff.1 h
    exact ⟨[], .refl writer, rfl, .pure []⟩
  | cons transfer rest ih =>
    obtain ⟨hfit, hfits⟩ := List.forall_mem_cons.1 hfits
    rw [writeAll, run_bind_eq_ok_iff] at h
    obtain ⟨_, middle, hwrite, hrest⟩ := h
    obtain ⟨moves, halong, hcapacity, hreads⟩ := ih hfits hrest
    exact ⟨_, (along_of_write hwrite).trans halong, hcapacity.trans (capacity_of_write hwrite),
      (reads_mirror hfit hwrite).bind (hreads.bind_nil (.pure _))⟩

/-- All that has been written is read back by the mirrored operations, whatever follows, and then
the reader has taken the bytes that have been written and no others. -/
theorem runAll_writeAll (hsink : sink.capacity = none)
    (hfits : ∀ transfer ∈ transfers, transfer.Fits)
    (h : writeAll transfers { sink := sink } = .ok () next) :
    ∃ bytes last, Writer.finish next = .ok bytes.length last ∧
      last.sink.bytes.toList = sink.bytes.toList ++ bytes ∧
      ∀ rest, ∃ reader, Request.runAll (transfers.map mirror) { source := bytes ++ rest } =
        .ok (transfers.map received) reader ∧
        reader.position = bytes.length ∧ reader.source = rest := by
  obtain ⟨moves, halong, hcapacity, hreads⟩ := exists_along_of_writeAll hfits h
  have hfinish : Writer.finish next = .ok _ _ := run_bind_eq_ok_iff.2 ⟨(), _,
    Writer.flushBits_of_capacity_eq_none (hcapacity.trans hsink), rfl⟩
  obtain ⟨word, bytes, hemits, hbytes, hcount⟩ := Writer.exists_emits_of_finish halong hfinish
  rw [hcount] at hfinish
  refine ⟨bytes, _, hfinish, hbytes, fun rest ↦ ?_⟩
  obtain ⟨reader, hread, hahead⟩ := hreads [.bytes []] rest { source := bytes ++ rest }
    ⟨none, word, bytes, hemits, nofun, rfl, rfl⟩
  have hsource : reader.source = rest := hahead.source_eq
  have hcounted := Request.counts_runAll _ _ _ _ hread
  rw [hsource, List.length_append] at hcounted
  change reader.position + rest.length = 0 + (bytes.length + rest.length) at hcounted
  exact ⟨reader, hread, by omega, hsource⟩

/-- Two fields of one container, a field of a wider container that swaps its bytes, a raw number, a
field of its own, some bytes and zeros. -/
def assorted : List Transfer := [
  .pack 5 1 3 false, .pack 2 1 4 false, .pack 0x12 2 9 true, .raw 3 0x010203 true,
  .pack 1 1 1 false, .bytes [7], .zeros 2, .pack 0 4 0 false, .flush, .pack 3 1 2 false]

/-- The fields are sent in four containers, each when something follows that it has no room for, and
the last one at the end. -/
theorem assorted_read : ∃ next last, writeAll assorted {} = .ok () next ∧
    Writer.finish next = .ok 11 last ∧
    last.sink.bytes.toList = [0x15, 0, 0x12, 1, 2, 3, 1, 7, 0, 0, 3] ∧
    ∃ reader, Request.runAll (assorted.map mirror)
        { source := [0x15, 0, 0x12, 1, 2, 3, 1, 7, 0, 0, 3] ++ [9] } =
          .ok [.number 5, .number 2, .number 0x12, .number 0x010203, .number 1, .bytes [7],
            .nothing, .number 0, .nothing, .number 3] reader ∧
        reader.position = 11 ∧ reader.source = [9] := by
  have hmade : ∃ next, writeAll assorted {} = .ok () next ∧ ∀ count last,
      Writer.finish next = .ok count last →
        last.sink.bytes.toList = [0x15, 0, 0x12, 1, 2, 3, 1, 7, 0, 0, 3] :=
    ⟨_, rfl, by rintro _ _ ⟨⟩; rfl⟩
  obtain ⟨next, hwrite, hlast⟩ := hmade
  obtain ⟨bytes, last, hfinish, hbytes, hread⟩ := runAll_writeAll rfl (by decide) hwrite
  obtain rfl : [0x15, 0, 0x12, 1, 2, 3, 1, 7, 0, 0, 3] = bytes :=
    (hlast _ _ hfinish).symm.trans hbytes
  exact ⟨next, last, hwrite, hfinish, hbytes, hread [9]⟩

end Transfer

end WireFormat
