import WireFormat.Proofs.Conflict.Calm
import WireFormat.Proofs.Container.Packing
import WireFormat.Proofs.Container.Steps
import WireFormat.Proofs.Stream.Capacity
import WireFormat.Proofs.Stream.Transfer

/-!
# What calls keep

Whatever is packed or unpacked, with whatever arguments and on whatever streams, the container at
hand is one that can be: it has one to eight bytes, its bits fit them and make up its number.  So no
number is shifted out of a container, and no more bits are taken from one than it holds.  A call
that fails because of its arguments has done nothing, even where it comes to look at its arguments
after a container could have gone out or been taken in.

* `Container.Sound` — containers that can be;
* `Packer.after`, `Reader.after` — the container at hand after some calls, failing ones included;
* `Atomic` — an action that fails with the data has done nothing;
* `Container.sound_of_calls` — what holds before and after each call.
-/

namespace WireFormat

/-! ## Containers -/

namespace Container

/-- A container that can be: it has one to eight bytes, and its number has the bits that are
there. -/
structure Sound (container : Container) : Prop extends container.Valid where
  pos : 1 ≤ container.width
  le : container.width ≤ 8

variable {container : Container} {value width bits : Nat} {swap : Bool}

theorem sound_start (hcheck : check width bits = .ok ()) (hvalue : value < 2 ^ bits) :
    (start value width bits swap).Sound where
  toValid := valid_start hcheck hvalue
  pos := (check_eq_ok_iff.1 hcheck).1
  le := (check_eq_ok_iff.1 hcheck).2.1

theorem Sound.add (h : container.Sound) (hroom : container.hasRoom width bits = true)
    (hvalue : value < 2 ^ bits) : (container.add value bits).Sound where
  toValid := h.toValid.add hroom hvalue
  pos := h.pos
  le := h.le

/-- Where a field is put nothing has been before. -/
theorem Valid.word_add (h : container.Valid) :
    (container.add value bits).word = container.word ||| value <<< container.bits := by
  rw [Nat.or_comm, ← Nat.shiftLeft_add_eq_or_of_lt h.word_lt, Nat.shiftLeft_eq, Nat.add_comm]
  rfl

theorem sound_load {bytes : List UInt8} (hpos : 1 ≤ bytes.length) (hle : bytes.length ≤ 8)
    (swap : Bool) : (load bytes swap).Sound where
  bits_le := Nat.le_refl _
  word_lt := by
    change ofWireBytes bytes swap < 2 ^ (8 * bytes.length)
    rw [Nat.pow_mul 2 8 bytes.length]
    cases swap with
    | false => exact ofLittleEndian_lt bytes
    | true => exact reverseBytes_lt (ofLittleEndian_lt bytes)
  pos := hpos
  le := hle

theorem Sound.peel (h : container.Sound) (hbits : bits ≤ container.bits) :
    (container.peel bits).2.Sound where
  bits_le := Nat.le_trans (Nat.sub_le ..) h.bits_le
  word_lt := by
    change container.word / 2 ^ bits < 2 ^ (container.bits - bits)
    rw [Nat.div_lt_iff_lt_mul (Nat.two_pow_pos bits), ← Nat.pow_add, Nat.sub_add_cancel hbits]
    exact h.word_lt
  pos := h.pos
  le := h.le

end Container

/-- If the action fails because of the data there, then it has changed nothing. -/
def Atomic {σ α : Type} (action : EStateM Error σ α) (s : σ) : Prop :=
  ∀ fault next, action s = .error (.data fault) next → next = s

/-! ## Packing -/

namespace Packer

/-- Makes a call on a stream. -/
def Call.write : Call → WriteM Unit
  | pack value width bits swap => Writer.pack value width bits swap
  | flush => Writer.flushBits

/-- The packer after some calls, one after the other, each on a stream of its own.  A call that
fails leaves the packer as far as it got. -/
def after (packer : Packer) : List (Call × Writer) → Packer
  | [] => packer
  | (call, stream) :: rest =>
    after (finalState (call.write { stream with packer := packer })).packer rest

/-- The container that is being filled can be, and holds something. -/
def Sound (packer : Packer) : Prop :=
  ∀ container ∈ packer.active, container.Sound ∧ 1 ≤ container.bits

/-- There is nothing in a new packer. -/
theorem sound_new : Sound {} := nofun

variable {packer result : Packer} {value width bits : Nat} {swap : Bool} {bytes : List UInt8}

/-- Bits are put into the container at hand, or into a new one. -/
theorem Sound.exists_add (h : packer.Sound) (hbits : bits ≠ 0)
    (hpack : packer.pack value width bits swap = .ok (bytes, result)) :
    ∃ into : Container, (into ∈ packer.active ∨ into = .start 0 width 0 swap) ∧ into.Valid ∧
      into.bits + bits ≤ 64 ∧ result.active = some (into.add value bits) ∧
      (into.add value bits).Sound ∧ 1 ≤ (into.add value bits).bits := by
  obtain ⟨hcheck, hvalue, ⟨active, hactive, hroom, -, -, rfl⟩ | ⟨-, -, rfl⟩⟩ :=
    pack_eq_ok hbits hpack
  · have hown := (h active hactive).1
    have hfits := (Container.hasRoom_iff.1 hroom).2
    have hle := hown.le
    refine ⟨active, .inl hactive, hown.toValid, by omega, rfl, hown.add hroom hvalue, ?_⟩
    exact Nat.le_trans (h active hactive).2 (Nat.le_add_right ..)
  · obtain ⟨-, hle, hfits⟩ := Container.check_eq_ok_iff.1 hcheck
    refine ⟨.start 0 width 0 swap, .inr rfl, ⟨Nat.zero_le _, Nat.one_pos⟩, ?_, ?_, ?_, ?_⟩
    · change 0 + bits ≤ 64
      omega
    · rw [← Container.start_eq_add]
    · rw [← Container.start_eq_add]
      exact Container.sound_start hcheck hvalue
    · change 1 ≤ 0 + bits
      omega

theorem Sound.pack (h : packer.Sound)
    (hpack : packer.pack value width bits swap = .ok (bytes, result)) : result.Sound := by
  by_cases hbits : bits = 0
  · subst hbits
    obtain ⟨-, -, hresult⟩ := pack_zero_eq_ok hpack
    obtain ⟨-, rfl⟩ := Prod.mk.inj hresult
    exact sound_new
  · obtain ⟨into, -, -, -, hactive, hsound, hpos⟩ := h.exists_add hbits hpack
    rintro container hmem
    obtain rfl : into.add value bits = container := Option.some.inj (hactive.symm.trans hmem)
    exact ⟨hsound, hpos⟩

variable {writer : Writer}

theorem Call.atomic_write (call : Call) (writer : Writer) : Atomic call.write writer := by
  intro fault next h
  cases call with
  | pack value width bits swap =>
    obtain ⟨_, -, -, hnext⟩ | ⟨hio, -⟩ := Writer.pack_eq_error h
    · exact hnext
    · cases hio
  | flush => cases Writer.eq_of_flushBits_eq_error h

/-- What one call keeps, whether it succeeds or not. -/
theorem Sound.write (h : writer.packer.Sound) (call : Call) :
    (finalState (call.write writer)).packer.Sound := by
  cases call with
  | pack value width bits swap =>
    cases hwrite : Writer.pack value width bits swap writer with
    | ok _ next =>
      rw [Call.write, hwrite, finalState]
      obtain ⟨bytes, packer, hpack, rfl⟩ := Writer.pack_eq_ok hwrite
      exact h.pack hpack
    | error error next =>
      rw [Call.write, hwrite]
      obtain ⟨_, -, -, rfl⟩ | ⟨-, hpacker⟩ := Writer.pack_eq_error hwrite
      · exact h
      · rw [finalState, hpacker]
        exact sound_new
  | flush =>
    cases hwrite : Writer.flushBits writer with
    | ok _ next =>
      rw [Call.write, hwrite, finalState, Writer.flushBits_eq_ok hwrite]
      exact sound_new
    | error error next =>
      rw [Call.write, hwrite, finalState, Writer.packer_of_flushBits_eq_error hwrite]
      exact sound_new

/-- What calls keep. -/
theorem Sound.after (h : packer.Sound) (calls : List (Call × Writer)) :
    (packer.after calls).Sound := by
  induction calls generalizing packer with
  | nil => exact h
  | cons first rest ih =>
    have hstream : Sound { first.2 with packer }.packer := h
    exact ih (hstream.write first.1)

end Packer

/-! ## Unpacking -/

namespace Reader

/-- A call that takes bits from a reader, or drops those that are left. -/
inductive Call where
  | unpack (width bits : Nat) (swap : Bool)
  | reset
deriving DecidableEq, Repr

/-- Makes a call on a stream.  There is no answer to a reset. -/
def Call.read : Call → ReadM Nat
  | unpack width bits swap => Reader.unpack width bits swap
  | reset => do
    resetBits
    return 0

/-- The container at hand after some calls, one after the other, each on a stream of its own.  A
call that fails leaves the container as far as it got. -/
def after (active : Option Container) : List (Call × Reader) → Option Container
  | [] => active
  | (call, stream) :: rest => after (finalState (call.read { stream with active })).active rest

variable {reader next : Reader} {active : Option Container} {value width bits : Nat} {swap : Bool}
  {error : Error}

theorem active_of_receiveAll_eq_error {count : Nat}
    (h : receiveAll count reader = .error error next) : next.active = reader.active := by
  obtain h | ⟨_, _, hreceive, h⟩ := run_bind_eq_error_iff.1 h
  · cases h
  · cases hreceive
    split at h
    · obtain ⟨-, rfl⟩ := run_throw_eq_error_iff.1 h
      rfl
    · cases h

/-- Bits are not unpacked because they cannot be, and then nothing has happened, or because there is
no whole container any more, and then the one at hand stays. -/
theorem of_unpack_eq_error (h : Reader.unpack width bits swap reader = .error error next) :
    (∃ fault, error = .data fault ∧ next = reader) ∨
      (error = .io .unexpectedEof ∧ next.active = reader.active) := by
  by_cases hbits : bits = 0
  · subst hbits
    cases hcheck : Container.check width 0 with
    | error fault =>
      unfold Reader.unpack at h
      rw [hcheck] at h
      obtain ⟨rfl, rfl⟩ := run_throw_eq_error_iff.1 h
      exact .inl ⟨fault, rfl, rfl⟩
    | ok _ =>
      rw [unpack_zero hcheck] at h
      cases h
  · obtain ⟨fault, -, rfl, rfl⟩ | ⟨-, ⟨_, -, -, rfl, rfl⟩ | ⟨-, hreceive⟩⟩ :=
      (unpack_eq_error_iff hbits).1 h
    · exact .inl ⟨fault, rfl, rfl⟩
    · exact .inl ⟨_, rfl, rfl⟩
    · exact .inr ⟨eq_of_receiveAll_eq_error hreceive, active_of_receiveAll_eq_error hreceive⟩

/-- Bits are taken from the container at hand, or from one that has just been read. -/
theorem exists_peel (h : ∀ container ∈ reader.active, container.Sound) (hbits : bits ≠ 0)
    (hunpack : Reader.unpack width bits swap reader = .ok value next) :
    ∃ source : Container, (source ∈ reader.active ∨ ∃ bytes, bytes.length = width ∧
        source = .load bytes swap) ∧ source.Sound ∧ bits ≤ source.bits ∧
      (source.peel bits).1 = value ∧ next.active = some (source.peel bits).2 := by
  obtain ⟨hcheck, ⟨active, hfilter, -, hvalue, rfl⟩ |
    ⟨-, bytes, middle, hreceive, hvalue, rfl⟩⟩ := (unpack_eq_ok_iff hbits).1 hunpack
  · obtain ⟨hactive, hholds⟩ := Option.filter_eq_some_iff.1 hfilter
    exact ⟨active, .inl hactive, h active hactive, (Container.holds_iff.1 hholds).2, hvalue, rfl⟩
  · obtain ⟨rfl, -, -⟩ := receiveAll_eq_ok hreceive
    obtain ⟨hpos, hle, hfits⟩ := Container.check_eq_ok_iff.1 hcheck
    exact ⟨.load bytes swap, .inr ⟨bytes, rfl, rfl⟩, Container.sound_load hpos hle swap, hfits,
      hvalue, rfl⟩

theorem Call.atomic_read (call : Call) (reader : Reader) : Atomic call.read reader := by
  intro fault next h
  cases call with
  | unpack width bits swap =>
    obtain ⟨_, -, hnext⟩ | ⟨hio, -⟩ := of_unpack_eq_error h
    · exact hnext
    · cases hio
  | reset => cases h

/-- What one call keeps, whether it succeeds or not. -/
theorem Call.sound_read (h : ∀ container ∈ reader.active, container.Sound) (call : Call) :
    ∀ container ∈ (finalState (call.read reader)).active, container.Sound := by
  cases call with
  | unpack width bits swap =>
    cases hread : Reader.unpack width bits swap reader with
    | error error next =>
      rw [Call.read, hread, finalState]
      obtain ⟨_, -, rfl⟩ | ⟨-, hactive⟩ := of_unpack_eq_error hread
      · exact h
      · rwa [hactive]
    | ok value next =>
      rw [Call.read, hread, finalState]
      by_cases hbits : bits = 0
      · subst hbits
        cases hcheck : Container.check width 0 with
        | error fault =>
          unfold Reader.unpack at hread
          rw [hcheck] at hread
          cases hread
        | ok _ =>
          rw [unpack_zero hcheck] at hread
          cases hread
          rintro _ ⟨⟩
      · obtain ⟨source, -, hsource, hle, -, hnext⟩ := exists_peel h hbits hread
        rw [hnext]
        rintro _ ⟨⟩
        exact hsource.peel hle
  | reset => rintro _ ⟨⟩

/-- What calls keep. -/
theorem sound_after (h : ∀ container ∈ active, container.Sound) (calls : List (Call × Reader)) :
    ∀ container ∈ after active calls, container.Sound := by
  induction calls generalizing active with
  | nil => exact h
  | cons first rest ih =>
    have hstream : ∀ container ∈ { first.2 with active }.active, container.Sound := h
    exact ih (Call.sound_read hstream first.1)

end Reader

/-! ## Both -/

/-- After any calls of a new packer, whatever their arguments and their streams and whether they
succeed or not, the container that is being filled can be and holds something.  The next call does
nothing if it fails because of its arguments.  If it puts bits into a container, then into that one
or an empty one, by a shift of less than 64, above what is there and within 64 bits.

The same holds of a new reader that bits are taken from, where no more bits are taken from a
container than there are. -/
theorem Container.sound_of_calls :
    (∀ (calls : List (Packer.Call × Writer)) (writer : Writer),
      writer.packer = Packer.after {} calls →
      (∀ container ∈ writer.packer.active, container.Sound ∧ 1 ≤ container.bits) ∧
      (∀ call : Packer.Call, Atomic call.write writer) ∧
      ∀ value width bits swap next, bits ≠ 0 →
        (Packer.Call.pack value width bits swap).write writer = .ok () next →
        ∃ into : Container, (into ∈ writer.packer.active ∨ into = .start 0 width 0 swap) ∧
          into.bits < 64 ∧ into.bits + bits ≤ 64 ∧
          next.packer.active = some (into.add value bits) ∧
          (into.add value bits).word = into.word ||| value <<< into.bits) ∧
    ∀ (calls : List (Reader.Call × Reader)) (reader : Reader),
      reader.active = Reader.after none calls →
      (∀ container ∈ reader.active, container.Sound) ∧
      (∀ call : Reader.Call, Atomic call.read reader) ∧
      ∀ width bits swap value next, bits ≠ 0 →
        (Reader.Call.unpack width bits swap).read reader = .ok value next →
        ∃ source : Container, (source ∈ reader.active ∨ ∃ bytes, bytes.length = width ∧
            source = .load bytes swap) ∧ source.Sound ∧ bits ≤ source.bits ∧
          (source.peel bits).1 = value ∧ next.active = some (source.peel bits).2 := by
  constructor
  · intro calls writer hwriter
    have hsound : writer.packer.Sound := hwriter ▸ Packer.sound_new.after calls
    refine ⟨hsound, fun call ↦ call.atomic_write writer, ?_⟩
    intro value width bits swap next hbits hwrite
    obtain ⟨bytes, packer, hpack, rfl⟩ := Writer.pack_eq_ok hwrite
    obtain ⟨into, hinto, hvalid, hfits, hactive, -, -⟩ := hsound.exists_add hbits hpack
    exact ⟨into, hinto, by omega, hfits, hactive, hvalid.word_add⟩
  · intro calls reader hreader
    have hnew : ∀ container ∈ (none : Option Container), container.Sound := nofun
    have hsound : ∀ container ∈ reader.active, container.Sound := by
      rw [hreader]
      exact Reader.sound_after hnew calls
    exact ⟨hsound, fun call ↦ call.atomic_read reader,
      fun _ _ _ _ _ hbits hread ↦ Reader.exists_peel hsound hbits hread⟩

/-- Two calls in vain, for bits that are too many for the number and for the other order of the
bytes, lie between those that fill a container; and one that finds too few bytes lies between those
that take one apart. -/
theorem Container.sound_of_calls_in_vain :
    (∃ into : Container, (into ∈ some ⟨5, 1, 3, true⟩ ∨ into = .start 0 1 0 true) ∧
      into.bits < 64 ∧ into.bits + 4 ≤ 64 ∧ some ⟨29, 1, 7, true⟩ = some (into.add 3 4) ∧
      (into.add 3 4).word = into.word ||| 3 <<< into.bits) ∧
    ∃ source : Container, (source ∈ some ⟨3, 1, 5, true⟩ ∨ ∃ bytes, bytes.length = 1 ∧
        source = .load bytes true) ∧ source.Sound ∧ 4 ≤ source.bits ∧
      (source.peel 4).1 = 3 ∧ some ⟨0, 1, 1, true⟩ = some (source.peel 4).2 := by
  constructor
  · have hcalls := Container.sound_of_calls.1
      [(.pack 5 1 3 true, {}), (.pack 4 1 2 true, {}), (.pack 3 1 4 false, {})]
      { packer := ⟨some ⟨5, 1, 3, true⟩⟩ } (by decide)
    exact hcalls.2.2 3 1 4 true { packer := ⟨some ⟨29, 1, 7, true⟩⟩ } (by decide) rfl
  · have hcalls := Container.sound_of_calls.2
      [(.unpack 1 3 true, ⟨[0x1d], 0, none⟩), (.unpack 2 9 true, ⟨[0], 0, none⟩)]
      ⟨[], 0, some ⟨3, 1, 5, true⟩⟩ (by decide)
    exact hcalls.2.2 1 4 true 3 ⟨[], 0, some ⟨0, 1, 1, true⟩⟩ (by decide) rfl

end WireFormat
