import Mathlib.Data.List.TakeWhile
import WireFormat.Proofs.Stream.Reading

/-!
# Writing what has been read

A reader takes its container apart as a writer fills one.  `Goes` says which container is pending
after some moves, and `Reader.Leads` that a writer can make some moves wherever a reader has gone
from one state to another: if it has filled as much of its container as the first reader has taken,
then afterwards as much as the second one has.  The bits themselves do not matter.

* `exists_emits_iff` — some moves come to some bytes exactly if they go somewhere;
* `Goes.exists_of_inOrder` — moves that agree about the order of bytes do;
* `Reader.leads_of_unpack`, `Reader.Leads.of_active_eq_none` — the operations of a reader lead on.
-/

namespace WireFormat

/-- With a container pending, some moves can be made, and leave another pending. -/
inductive Goes : Option Container → List Move → Option Container → Prop where
  | done (pending : Option Container) : Goes pending [] pending
  | add {active : Container} {value container width : Nat} {swap : Bool} {moves : List Move}
      {last : Option Container} (check : Container.check container width = .ok ())
      (value_lt : value < 2 ^ width) (room : active.hasRoom container width = true)
      (same : active.swap = swap) (rest : Goes (some (active.add value width)) moves last) :
      Goes (some active) (.bits value container width swap :: moves) last
  | start {pending : Option Container} {value container width : Nat} {swap : Bool}
      {moves : List Move} {last : Option Container}
      (check : Container.check container width = .ok ()) (value_lt : value < 2 ^ width)
      (full : ∀ active ∈ pending, active.hasRoom container width = false)
      (rest : Goes (some (.start value container width swap)) moves last) :
      Goes pending (.bits value container width swap :: moves) last
  | bytes {pending : Option Container} {own : List UInt8} {moves : List Move}
      {last : Option Container} (rest : Goes none moves last) :
      Goes pending (.bytes own :: moves) last

variable {pending middle last : Option Container} {moves more : List Move}

namespace Goes

theorem trans (h : Goes pending moves middle) (hmore : Goes middle more last) :
    Goes pending (moves ++ more) last := by
  induction h with
  | done => exact hmore
  | add check value_lt room same _ ih => exact .add check value_lt room same (ih hmore)
  | start check value_lt full _ ih => exact .start check value_lt full (ih hmore)
  | bytes _ ih => exact .bytes (ih hmore)

/-- Nothing is pending after bytes. -/
theorem eq_none_of_append_bytes {own : List UInt8} (h : Goes pending (moves ++ [.bytes own]) last) :
    last = none := by
  generalize hall : moves ++ [.bytes own] = all at h
  induction h generalizing moves with
  | done => simp at hall
  | add _ _ _ _ _ ih | start _ _ _ _ ih =>
    cases moves with
    | nil => cases hall
    | cons move moves => exact ih (List.cons.inj hall).2
  | bytes rest ih =>
    cases moves with
    | nil =>
      obtain ⟨-, rfl⟩ := List.cons.inj hall
      cases rest
      rfl
    | cons move moves => exact ih (List.cons.inj hall).2

end Goes

/-- Some moves come to some bytes exactly if they can be made. -/
theorem exists_emits_iff :
    (∃ word bytes, Emits pending moves word bytes) ↔ ∃ last, Goes pending moves last := by
  constructor
  · rintro ⟨word, bytes, h⟩
    induction h with
    | done => exact ⟨_, .done _⟩
    | add check value_lt room same _ ih =>
      obtain ⟨last, hrest⟩ := ih
      exact ⟨last, .add check value_lt room same hrest⟩
    | start check value_lt full _ ih =>
      obtain ⟨last, hrest⟩ := ih
      exact ⟨last, .start check value_lt full hrest⟩
    | bytes _ ih =>
      obtain ⟨last, hrest⟩ := ih
      exact ⟨last, .bytes hrest⟩
  · rintro ⟨last, h⟩
    induction h with
    | done => exact ⟨_, _, .done _⟩
    | add check value_lt room same _ ih =>
      obtain ⟨word, bytes, hrest⟩ := ih
      exact ⟨word, bytes, .add check value_lt room same hrest⟩
    | start check value_lt full _ ih =>
      obtain ⟨word, bytes, hrest⟩ := ih
      exact ⟨_, _, .start check value_lt full hrest⟩
    | bytes _ ih =>
      obtain ⟨word, bytes, hrest⟩ := ih
      exact ⟨_, _, .bytes hrest⟩

/-! ## Moves in one order of bytes -/

/-- Some bits fit their container, and lie in it in an order of bytes. -/
def Move.InOrder (order : ByteOrder) : Move → Prop
  | bits value container width swap => Container.check container width = .ok () ∧
    value < 2 ^ width ∧ order.reverses container = swap
  | bytes _ => True

@[simp] theorem Move.inOrder_bytes (order : ByteOrder) (own : List UInt8) :
    (bytes own).InOrder order := trivial

/-- Moves in one order of bytes can be made one after the other. -/
theorem Goes.exists_of_inOrder {order : ByteOrder} (h : ∀ move ∈ moves, move.InOrder order)
    (hpending : ∀ active ∈ pending, order.reverses active.width = active.swap) :
    ∃ last, Goes pending moves last := by
  induction moves generalizing pending with
  | nil => exact ⟨pending, .done pending⟩
  | cons move moves ih =>
    obtain ⟨hmove, hmoves⟩ := List.forall_mem_cons.1 h
    cases move with
    | bytes own =>
      have hnone : ∀ later ∈ (none : Option Container), order.reverses later.width = later.swap := by
        rintro _ ⟨⟩
      obtain ⟨last, hlast⟩ := ih hmoves hnone
      exact ⟨last, .bytes hlast⟩
    | bits value container width swap =>
      obtain ⟨hcheck, hvalue, hswap⟩ := hmove
      by_cases hroom : ∃ active ∈ pending, active.hasRoom container width = true
      · obtain ⟨active, rfl, hroom⟩ := hroom
        have hactive : order.reverses active.width = active.swap := hpending active rfl
        have hadded : ∀ later ∈ some (active.add value width),
            order.reverses later.width = later.swap := by
          rintro _ ⟨⟩
          exact hactive
        obtain ⟨last, hlast⟩ := ih hmoves hadded
        refine ⟨last, .add hcheck hvalue hroom ?_ hlast⟩
        rw [← hactive, (Container.hasRoom_iff.1 hroom).1, hswap]
      · have hstarted : ∀ later ∈ some (Container.start value container width swap),
            order.reverses later.width = later.swap := by
          rintro _ ⟨⟩
          exact hswap
        obtain ⟨last, hlast⟩ := ih hmoves hstarted
        refine ⟨last, .start hcheck hvalue (fun active hactive ↦ ?_) hlast⟩
        exact Bool.eq_false_iff.2 fun h ↦ hroom ⟨active, hactive, h⟩

/-! ## Moves that start and end with bytes -/

/-- Some moves start with bytes, so that they can be made whatever is pending, and end with bytes,
so that they leave nothing pending. -/
structure Seals (moves : List Move) : Prop where
  start : ∃ own rest, moves = .bytes own :: rest
  stop : ∃ init own, moves = init ++ [.bytes own]

namespace Seals

theorem singleton (own : List UInt8) : Seals [.bytes own] := ⟨⟨own, [], rfl⟩, [], own, rfl⟩

theorem append (h : Seals moves) (hmore : Seals more) : Seals (moves ++ more) := by
  obtain ⟨own, rest, rfl⟩ := h.start
  obtain ⟨init, last, rfl⟩ := hmore.stop
  exact ⟨⟨own, _, rfl⟩, _, last, (List.append_assoc ..).symm⟩

/-- Of moves that start and end with bytes as many may follow each other as there are, but one. -/
theorem flatten {parts : List (List Move)} (hne : parts ≠ []) (h : ∀ part ∈ parts, Seals part) :
    Seals parts.flatten := by
  induction parts with
  | nil => exact (hne rfl).elim
  | cons part parts ih =>
    obtain ⟨hpart, hparts⟩ := List.forall_mem_cons.1 h
    cases parts with
    | nil => simpa using hpart
    | cons => exact hpart.append (ih (List.cons_ne_nil _ _) hparts)

/-- What can be made with nothing pending can be made whatever is pending. -/
theorem goes (h : Seals moves) (hgoes : Goes none moves last) : Goes pending moves none := by
  obtain ⟨init, own, hstop⟩ := h.stop
  obtain rfl := (hstop ▸ hgoes).eq_none_of_append_bytes
  obtain ⟨own, rest, rfl⟩ := h.start
  cases hgoes with
  | bytes hrest => exact .bytes hrest

end Seals

/-! ## Containers that are dropped -/

namespace Reader

variable {reader next : Reader} {bytes : List UInt8}

theorem active_eq_none_of_readBytes {count : Nat} (h : readBytes count reader = .ok bytes next) :
    bytes.length = count ∧ next.active = none := by
  obtain ⟨_, _, hreset, hreceive⟩ := run_bind_eq_ok_iff.1 h
  cases hreset
  obtain ⟨hlength, -, hactive⟩ := receiveAll_eq_ok hreceive
  exact ⟨hlength, hactive⟩

theorem active_eq_none_of_readRaw {width raw : Nat} {swap : Bool}
    (h : readRaw width swap reader = .ok raw next) : next.active = none := by
  obtain ⟨_, _, hread, hraw⟩ := run_bind_eq_ok_iff.1 h
  obtain ⟨-, rfl⟩ := run_pure_eq_ok_iff.1 hraw
  exact (active_eq_none_of_readBytes hread).2

theorem active_eq_none_of_skip {count : Nat} (h : skip count reader = .ok () next) :
    next.active = none := by
  obtain ⟨_, _, hread, hskip⟩ := run_bind_eq_ok_iff.1 h
  obtain ⟨-, rfl⟩ := run_pure_eq_ok_iff.1 hskip
  exact (active_eq_none_of_readBytes hread).2

/-- There is no zero byte before the first one. -/
theorem active_eq_none_of_readUntilNul (h : readUntilNul reader = .ok bytes next) :
    0 ∉ bytes ∧ next.active = none := by
  obtain ⟨_, _, hreset, h⟩ := run_bind_eq_ok_iff.1 h
  cases hreset
  obtain ⟨_, _, hget, h⟩ := run_bind_eq_ok_iff.1 h
  obtain ⟨rfl, rfl⟩ := run_get_eq_ok_iff.1 hget
  obtain ⟨_, _, hreceive, h⟩ := run_bind_eq_ok_iff.1 h
  obtain ⟨rfl, rfl⟩ := run_pure_eq_ok_iff.1 h
  refine ⟨fun hmem ↦ ?_, (receiveAll_eq_ok hreceive).2.2⟩
  simpa using List.mem_takeWhile_imp hmem

end Reader

/-! ## Readers -/

/-- As much of a container has been filled as has been taken from another. -/
structure Container.Mirrors (taken filled : Container) : Prop where
  width : taken.width = filled.width
  swap : taken.swap = filled.swap
  bits : taken.bits + filled.bits = 8 * filled.width

namespace Reader

variable {reader next after : Reader}

/-- Where the reader goes from one state to another, a writer that has filled as much of its
container as the reader has taken can make some moves, and is as far as the reader again. -/
def Leads (reader : Reader) (moves : List Move) (next : Reader) : Prop :=
  ∀ pending, Option.Rel Container.Mirrors reader.active pending →
    ∃ last, Goes pending moves last ∧ Option.Rel Container.Mirrors next.active last

namespace Leads

theorem refl (reader : Reader) : reader.Leads [] reader := fun pending h ↦ ⟨pending, .done _, h⟩

theorem trans (h : reader.Leads moves next) (hmore : next.Leads more after) :
    reader.Leads (moves ++ more) after := by
  intro pending hpending
  obtain ⟨middle, hmoves, hmiddle⟩ := h pending hpending
  obtain ⟨last, hlast, hafter⟩ := hmore middle hmiddle
  exact ⟨last, hmoves.trans hlast, hafter⟩

/-- A reader that has dropped its container has done so where bytes are written. -/
theorem of_active_eq_none (h : next.active = none) (own : List UInt8) :
    reader.Leads [.bytes own] next := by
  intro pending _
  refine ⟨none, .bytes (.done none), ?_⟩
  rw [h]
  exact .none

/-- In place of moves that start and end with bytes, any others can be made that do. -/
theorem of_seals (h : reader.Leads moves next) (hseals : Seals moves) (hother : Seals more)
    (hgoes : Goes none more last) : reader.Leads more next := by
  intro pending hpending
  obtain ⟨middle, hmoves, hmiddle⟩ := h pending hpending
  obtain ⟨init, own, hstop⟩ := hseals.stop
  obtain rfl := (hstop ▸ hmoves).eq_none_of_append_bytes
  exact ⟨none, hother.goes hgoes, hmiddle⟩

end Leads

theorem lt_of_unpack {width bits found : Nat} {swap : Bool} (hbits : bits ≠ 0)
    (h : unpack width bits swap reader = .ok found next) : found < 2 ^ bits := by
  have hpos : 0 < 2 ^ bits := Nat.two_pow_pos bits
  obtain ⟨-, ⟨active, -, -, rfl, -⟩ | ⟨-, bytes, middle, -, rfl, -⟩⟩ := (unpack_eq_ok_iff hbits).1 h
  · exact Nat.mod_lt _ hpos
  · exact Nat.mod_lt _ hpos

/-- Where bits have been taken, as many can be written. -/
theorem leads_of_unpack {width bits found value : Nat} {swap : Bool} (hbits : bits ≠ 0)
    (h : unpack width bits swap reader = .ok found next) (hvalue : value < 2 ^ bits) :
    reader.Leads [.bits value width bits swap] next := by
  obtain ⟨hcheck, ⟨active, hfilter, hswap, -, rfl⟩ |
    ⟨hfilter, bytes, middle, hreceive, -, rfl⟩⟩ := (unpack_eq_ok_iff hbits).1 h
  · obtain ⟨hactive, hholds⟩ := Option.filter_eq_some_iff.1 hfilter
    obtain ⟨hwidth, hle⟩ := Container.holds_iff.1 hholds
    intro pending hpending
    rw [hactive] at hpending
    cases hpending with
    | @some _ filled hmirrors =>
      have hroom : filled.hasRoom width bits = true := by
        refine Container.hasRoom_iff.2 ⟨hmirrors.width ▸ hwidth, ?_⟩
        have hall := hmirrors.bits
        omega
      refine ⟨_, .add hcheck hvalue hroom (hmirrors.swap ▸ hswap) (.done _), .some ⟨?_, ?_, ?_⟩⟩
      · exact hmirrors.width
      · exact hmirrors.swap
      · have hall := hmirrors.bits
        change active.bits - bits + (filled.bits + bits) = 8 * filled.width
        omega
  · intro pending hpending
    have hfull : ∀ filled ∈ pending, filled.hasRoom width bits = false := by
      rintro filled ⟨⟩
      generalize hactive : reader.active = active at hpending hfilter
      cases hpending with
      | @some taken _ hmirrors =>
        refine Bool.eq_false_iff.2 fun hroom ↦ ?_
        obtain ⟨hwidth, hle⟩ := Container.hasRoom_iff.1 hroom
        have hall := hmirrors.bits
        have hholds : taken.holds width bits = true :=
          Container.holds_iff.2 ⟨hmirrors.width.trans hwidth, by omega⟩
        simp [hholds] at hfilter
    obtain ⟨hlength, -, -⟩ := receiveAll_eq_ok hreceive
    refine ⟨_, .start hcheck hvalue hfull (.done _), .some ⟨hlength, rfl, ?_⟩⟩
    have hle := (Container.check_eq_ok_iff.1 hcheck).2.2
    change 8 * bytes.length - bits + bits = 8 * width
    omega

end Reader

end WireFormat
