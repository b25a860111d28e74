import WireFormat.Plan.Encode
import WireFormat.Proofs.Run.Fields
import WireFormat.Proofs.Stream.Making

/-!
# Sinks that run out of room

A sink that is full stops the writer at the byte that does not fit.  Nothing a writer does depends
on what the sink holds, so up to there it does the same as with a sink that never is full.

* `Writer.into` — a writer whose sink holds some bytes already and has room for only so many more;
* `Confined` — the outcome of an action with a full sink, beside the one with a sink without limit;
* `Confines` — an action whose outcomes are so, wherever it starts.
-/

namespace WireFormat

/-- The state that an action ends in, whether it succeeds or not. -/
def finalState {ε σ α : Type} : EStateM.Result ε σ α → σ
  | .ok _ s | .error _ s => s

namespace Writer

/-- The writer, but its sink also holds some bytes from before, and has room for `room` bytes. -/
def into (held : Array UInt8) (room : Nat) (writer : Writer) : Writer :=
  { writer with sink := ⟨held ++ writer.sink.bytes, some (held.size + room)⟩ }

/-- The same for the writer that an action ends with. -/
def intoResult {α : Type} (held : Array UInt8) (room : Nat) :
    EStateM.Result Error Writer α → EStateM.Result Error Writer α
  | .ok a writer => .ok a (writer.into held room)
  | .error error writer => .error error (writer.into held room)

/-- All bytes that the sink has taken. -/
abbrev written (writer : Writer) : List UInt8 := writer.sink.bytes.toList

end Writer

/-- Whether an outcome is a failure, then one that lies in the data. -/
def OfData {σ α : Type} : EStateM.Result Error σ α → Prop
  | .ok _ _ => True
  | .error error _ => ∃ fault, error.rootCause = .data fault

/-- Two outcomes of an action that has started from a writer.  The first is that with a sink without
limit, to which some bytes may have been added, and which is not what an action fails at.  The
second is that with room for `room` bytes: it is the same if all bytes fit, and otherwise those that
fit have been written. -/
structure Confined {α : Type} (held : Array UInt8) (room : Nat) (writer : Writer)
    (free tight : EStateM.Result Error Writer α) : Prop where
  unlimited : (finalState free).sink.capacity = none
  ofData : OfData free
  extends_written : writer.written <+: (finalState free).written
  fits : (finalState free).written.length ≤ room → tight = Writer.intoResult held room free
  full : room < (finalState free).written.length → ∃ error last, tight = .error error last ∧
    error.rootCause = .io .writeZero ∧
    last.written = held.toList ++ (finalState free).written.take room

/-- With a sink that has not enough room, the action comes to the same up to the byte that does not
fit. -/
def Confines {α : Type} (action : WriteM α) : Prop :=
  ∀ (held : Array UInt8) (room : Nat) (writer : Writer), writer.sink.capacity = none →
    writer.written.length ≤ room →
      Confined held room writer (action writer) (action (writer.into held room))

variable {α β : Type} {action : WriteM α} {f : α → WriteM β}

/-- What leaves the sink as it is comes to the same. -/
theorem Confined.of_sink_eq {held : Array UInt8} {room : Nat} {writer : Writer}
    {free tight : EStateM.Result Error Writer α} (hcapacity : writer.sink.capacity = none)
    (hroom : writer.written.length ≤ room) (hsink : (finalState free).sink = writer.sink)
    (hdata : OfData free) (htight : tight = Writer.intoResult held room free) :
    Confined held room writer free tight where
  unlimited := by rw [hsink, hcapacity]
  ofData := hdata
  extends_written := by simp [Writer.written, hsink]
  fits := fun _ ↦ htight
  full := fun hfull ↦ by
    rw [Writer.written, hsink] at hfull
    exact (Nat.not_lt.2 hroom hfull).elim

namespace Confines

theorem pure (a : α) : Confines (Pure.pure a) :=
  fun _ _ _ hcapacity hroom ↦ .of_sink_eq hcapacity hroom rfl trivial rfl

theorem throw {error : Error} {fault : DataError} (h : error.rootCause = .data fault) :
    Confines (MonadExcept.throw error : WriteM α) :=
  fun _ _ _ hcapacity hroom ↦ .of_sink_eq hcapacity hroom rfl ⟨fault, h⟩ rfl

theorem ofData (result : Except DataError α) : Confines (WriteM.ofData result) := by
  cases result with
  | ok a => exact .pure a
  | error fault => exact .throw rfl

/-- What only changes the packer comes to the same. -/
theorem modifyPacker (g : Packer → Packer) : Confines
    (modify fun writer ↦ { writer with packer := g writer.packer } : WriteM PUnit) :=
  fun _ _ _ hcapacity hroom ↦ .of_sink_eq hcapacity hroom rfl trivial rfl

theorem bind (h : Confines action) (hmore : ∀ a, Confines (f a)) : Confines (action >>= f) := by
  intro held room writer hcapacity hroom
  change Confined held room writer (EStateM.bind action f writer)
    (EStateM.bind action f (writer.into held room))
  have hfirst := h held room writer hcapacity hroom
  unfold EStateM.bind
  cases haction : action writer with
  | error error last =>
    rw [haction] at hfirst
    refine ⟨hfirst.unlimited, hfirst.ofData, hfirst.extends_written, fun hfits ↦ ?_,
      fun hfull ↦ ?_⟩
    · rw [hfirst.fits hfits]
      rfl
    · obtain ⟨own, last', htight, hcause, hwritten⟩ := hfirst.full hfull
      rw [htight]
      exact ⟨own, last', rfl, hcause, hwritten⟩
  | ok a middle =>
    rw [haction] at hfirst
    dsimp only
    have hgrown := hmore a held middle.written.length middle hfirst.unlimited le_rfl
    refine ⟨hgrown.unlimited, hgrown.ofData, hfirst.extends_written.trans hgrown.extends_written,
      fun hfits ↦ ?_, fun hfull ↦ ?_⟩
    · have hmiddle := hgrown.extends_written.length_le.trans hfits
      rw [hfirst.fits hmiddle]
      exact (hmore a held room middle hfirst.unlimited hmiddle).fits hfits
    · -- The room ends in what the first action writes, or in what the second does.
      rcases Nat.lt_or_ge room middle.written.length with hlt | hle
      · obtain ⟨error, last, htight, hcause, hwritten⟩ := hfirst.full hlt
        rw [htight]
        refine ⟨error, last, rfl, hcause, hwritten.trans ?_⟩
        obtain ⟨more, hmore⟩ := hgrown.extends_written
        rw [← hmore, List.take_append_of_le_length hlt.le]
        rfl
      · rw [hfirst.fits hle]
        exact (hmore a held room middle hfirst.unlimited hle).full hfull

/-- Looking at the writer does not make a difference if only the position and the packer matter. -/
theorem get_bind {f : Writer → WriteM α} (h : ∀ writer, Confines (f writer))
    (hsame : ∀ held room writer, f (writer.into held room) = f writer) :
    Confines (get >>= f) := by
  intro held room writer hcapacity hroom
  change Confined held room writer (f writer writer) (f (writer.into held room) _)
  rw [hsame]
  exact h writer held room writer hcapacity hroom

theorem locate (h : Confines action) (path : Path) : Confines (WriteM.locate path action) := by
  intro held room writer hcapacity hroom
  have haction := h held room writer hcapacity hroom
  have hfinal : finalState (WriteM.locate path action writer) = finalState (action writer) := by
    change finalState (EStateM.adaptExcept _ action writer) = _
    unfold EStateM.adaptExcept
    cases action writer <;> rfl
  constructor
  case unlimited => exact hfinal ▸ haction.unlimited
  case ofData =>
    cases hlocated : WriteM.locate path action writer with
    | ok _ _ => trivial
    | error error last =>
      obtain ⟨cause, hcause, rfl⟩ := run_adaptExcept_eq_error_iff.1 hlocated
      have hdata := haction.ofData
      rw [hcause] at hdata
      obtain ⟨fault, hfault⟩ := hdata
      exact ⟨fault, (Error.rootCause_locate ..).trans hfault⟩
  case extends_written => exact hfinal ▸ haction.extends_written
  case fits =>
    rw [hfinal]
    intro hfits
    change EStateM.adaptExcept _ action _ =
      Writer.intoResult held room (EStateM.adaptExcept _ action writer)
    unfold EStateM.adaptExcept
    rw [haction.fits hfits]
    cases action writer <;> rfl
  case full =>
    rw [hfinal]
    intro hfull
    obtain ⟨error, last, htight, hcause, hwritten⟩ := haction.full hfull
    exact ⟨error.locate path, last, run_adaptExcept_eq_error_iff.2 ⟨error, htight, rfl⟩,
      (Error.rootCause_locate ..).trans hcause, hwritten⟩

end Confines

/-! ## Operations -/

namespace Writer

variable {writer : Writer} {held : Array UInt8} {room : Nat} {bytes : List UInt8}

theorem fitting_into (hroom : writer.written.length ≤ room) :
    (writer.into held room).sink.fitting bytes = bytes.take (room - writer.written.length) := by
  rw [written, Array.length_toList] at *
  simp only [into, Sink.fitting, Array.size_append]
  congr 1
  omega

/-- Bytes that do not all fit are written as far as they fit. -/
theorem confines_sendAll (bytes : List UInt8) : Confines (sendAll bytes) := by
  intro held room writer hcapacity hroom
  rw [sendAll_of_capacity_eq_none writer hcapacity]
  have hfinal : (writer.sent bytes).written = writer.written ++ bytes := by simp [sent, written]
  have hsend : send bytes (writer.into held room) =
      .ok (bytes.take (room - writer.written.length)).length
        ((writer.into held room).sent (bytes.take (room - writer.written.length))) := by
    have hfitting : (writer.into held room).sink.fitting bytes = _ := fitting_into hroom
    rw [← hfitting]
    rfl
  refine ⟨hcapacity, trivial, ?_, fun hfits ↦ ?_, fun hfull ↦ ?_⟩ <;>
    simp only [finalState, hfinal] at *
  · exact List.prefix_append _ _
  · rw [List.length_append] at hfits
    have htake : bytes.take (room - writer.written.length) = bytes :=
      List.take_of_length_le (by omega)
    rw [htake] at hsend
    refine run_bind_eq_ok_iff.2 ⟨_, _, hsend, ?_⟩
    rw [if_neg (Nat.lt_irrefl _)]
    have hassoc : held ++ writer.sink.bytes ++ bytes = held ++ (writer.sink.bytes ++ bytes) := by
      apply Array.ext'
      simp
    simp [into, sent, hassoc, pure, EStateM.pure]
  · rw [List.length_append] at hfull
    refine ⟨.io .writeZero, (writer.into held room).sent (bytes.take (room - writer.written.length)),
      run_bind_eq_error_iff.2 (.inr ⟨_, _, hsend, ?_⟩), rfl, ?_⟩
    · rw [if_pos (by rw [List.length_take]; omega)]
      rfl
    · simp [into, sent, written, List.take_append, List.take_of_length_le hroom]

theorem confines_flushBits : Confines flushBits :=
  .bind (fun _ _ _ hcapacity hroom ↦ .of_sink_eq hcapacity hroom rfl trivial rfl) confines_sendAll

theorem confines_writeBytes (bytes : List UInt8) : Confines (writeBytes bytes) :=
  confines_flushBits.bind fun _ ↦ confines_sendAll bytes

theorem confines_writeZeros (count : Nat) : Confines (writeZeros count) := by
  rw [writeZeros, sendZeros_eq]
  exact confines_writeBytes _

/-- A container that does not fit is no longer pending, but nothing is packed any more. -/
theorem confines_pack (value width bits : Nat) (swap : Bool) :
    Confines (pack value width bits swap) := by
  refine .get_bind (fun writer ↦ ?_) fun _ _ _ ↦ rfl
  cases writer.packer.pack value width bits swap with
  | error fault => exact .throw rfl
  | ok result =>
    dsimp only
    split
    · exact .modifyPacker fun _ ↦ result.2
    · exact (Confines.modifyPacker fun _ ↦ {}).bind fun _ ↦ (confines_sendAll _).bind fun _ ↦
        .modifyPacker fun _ ↦ result.2

theorem confines_finish : Confines finish :=
  confines_flushBits.bind fun _ ↦ .get_bind (fun _ ↦ .pure _) fun _ _ _ ↦ rfl

end Writer

end WireFormat
