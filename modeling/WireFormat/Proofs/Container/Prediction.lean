import WireFormat.Proofs.Container.Packing
import WireFormat.Proofs.Layout.Tracking

/-!
# Containers foretold

`Runs` counts the bytes of all containers before any value is there: it counts a container when the
first bit field comes to lie in it.  A packer sends a container out when a bit field does not fit it
any more, or when its run ends.  So the packer is behind by the container that is still being
filled.

* `Runs.Event`, `Runs.trackAll` — what happens to the runs of a record, and the calls of a packer
  that go with it;
* `Runs.Matches` — a packer and the runs seen so far are at the same place;
* `Runs.runAll_of_trackAll` — the packer succeeds, and as many bytes go out as the runs have
  counted.
-/

namespace WireFormat
namespace Runs

/-! ## Events -/

/-- What happens to the runs of a record: one more bit field, which has a value, or the end of a
run. -/
inductive Event where
  | field (repr : IntegerKind) (bits : Nat) (order : ByteOrder) (value : Nat)
  | stop
deriving DecidableEq, Repr

/-- A bit field takes bits, and its value fits in as many as it takes. -/
def Event.Fits : Event → Prop
  | field _ bits _ value => 1 ≤ bits ∧ value < 2 ^ bits
  | stop => True

/-- The call that packs what has happened, and the runs after it.  A bit field is packed into the
container that it has been given, in the byte order that it has there. -/
def Event.track (runs : Runs) : Event → Except LayoutFault (Packer.Call × Runs)
  | field repr bits order value => do
    let (width, runs) ← runs.add repr.width bits order
    return (.pack value width bits (order.reverses width), runs)
  | stop => .ok (.flush, runs.close)

/-- The calls for all that happens, one after the other, and the runs at the end. -/
def trackAll (runs : Runs) : List Event → Except LayoutFault (List Packer.Call × Runs)
  | [] => .ok ([], runs)
  | event :: rest => do
    let (call, runs) ← event.track runs
    let (calls, runs) ← trackAll runs rest
    return (call :: calls, runs)

variable {runs next last : Runs} {event : Event} {events : List Event} {call : Packer.Call}
  {calls stretch : List Packer.Call} {packer : Packer} {written width bits value : Nat}
  {order : ByteOrder} {repr : IntegerKind}

theorem Event.track_field_eq_ok_iff :
    (field repr bits order value).track runs = .ok (call, next) ↔
      ∃ width, runs.add repr.width bits order = .ok (width, next) ∧
        call = .pack value width bits (order.reverses width) := by
  rw [track]
  cases runs.add repr.width bits order with
  | error fault =>
    constructor
    · nofun
    · rintro ⟨width, h, -⟩
      nomatch h
  | ok result =>
    obtain ⟨width, runs⟩ := result
    constructor
    · rintro ⟨⟩
      exact ⟨width, rfl, rfl⟩
    · rintro ⟨_, ⟨⟩, rfl⟩
      rfl

theorem trackAll_cons_eq_ok_iff :
    runs.trackAll (event :: events) = .ok (calls, last) ↔
      ∃ call next rest, event.track runs = .ok (call, next) ∧
        next.trackAll events = .ok (rest, last) ∧ calls = call :: rest := by
  simp only [trackAll, bind_eq_ok_iff, pure_eq_ok_iff, Prod.exists, Prod.mk.injEq]
  constructor
  · rintro ⟨call, next, hcall, rest, _, hrest, rfl, rfl⟩
    exact ⟨call, next, rest, hcall, hrest, rfl⟩
  · rintro ⟨call, next, rest, hcall, hrest, rfl⟩
    exact ⟨call, next, hcall, rest, last, hrest, rfl, rfl⟩

/-! ## One run, one container -/

/-- What it takes to start a run, and what comes of it. -/
theorem eq_of_add_ended {bytes : Nat}
    (h : add ⟨none, bytes⟩ repr.width bits order = .ok (width, next)) :
    bits ≤ 8 * width ∧ width = repr.width ∧
      next = ⟨some ⟨width, bits, order.reverses width⟩, bytes + width⟩ := by
  obtain ⟨hroom, -, heq⟩ := add_eq_ok_iff.1 h
  obtain ⟨rfl, rfl⟩ := Prod.mk.inj heq
  change bits ≤ 8 * repr.width at hroom
  refine ⟨hroom, rfl, ?_⟩
  simp [enter, Nat.not_lt.2 hroom]

/-- What it takes to go on with a run, and what comes of it. -/
theorem eq_of_add_active {run : Run} {bytes : Nat}
    (h : add ⟨some run, bytes⟩ repr.width bits order = .ok (width, next)) :
    bits ≤ 8 * width ∧ width = run.width ∧ order.reverses width = run.swap ∧
      next = if 8 * run.width < run.bits + bits then ⟨some { run with bits }, bytes + run.width⟩
        else ⟨some { run with bits := run.bits + bits }, bytes⟩ := by
  obtain ⟨hroom, hswap, heq⟩ := add_eq_ok_iff.1 h
  obtain ⟨rfl, rfl⟩ := Prod.mk.inj heq
  exact ⟨hroom, rfl, hswap, rfl⟩

/-- Up to its end, all bit fields of a run have its container. -/
theorem eq_pack_of_active {swap : Bool} (hactive : runs.active = some ⟨width, bits, swap⟩)
    (h : runs.trackAll events = .ok (calls, last)) (hstretch : stretch <+: calls)
    (hflush : .flush ∉ stretch) :
    ∀ call ∈ stretch, ∃ value bits, call = .pack value width bits swap := by
  induction events generalizing runs bits calls stretch with
  | nil =>
    cases h
    rw [List.prefix_nil.1 hstretch]
    nofun
  | cons event events ih =>
    obtain ⟨first, next, rest, hfirst, hrest, rfl⟩ := trackAll_cons_eq_ok_iff.1 h
    rcases List.prefix_cons_iff.1 hstretch with rfl | ⟨stretch, rfl, hprefix⟩
    · nofun
    · cases event with
      | stop =>
        cases hfirst
        exact absurd List.mem_cons_self hflush
      | field repr added order value =>
        obtain ⟨container, hadd, rfl⟩ := Event.track_field_eq_ok_iff.1 hfirst
        obtain ⟨-, hwidth, hswap, taken, hnext⟩ := add_eq_ok hadd
        rw [enter, hactive] at hwidth hswap
        obtain rfl : width = container := hwidth
        obtain rfl : swap = order.reverses width := hswap
        exact List.forall_mem_cons.2 ⟨⟨value, added, rfl⟩,
          ih hnext hrest hprefix (List.not_mem_of_not_mem_cons hflush)⟩

/-- All bit fields with no end of a run between them have one container. -/
theorem exists_eq_pack (h : runs.trackAll events = .ok (calls, last))
    (hstretch : stretch <:+: calls) (hflush : .flush ∉ stretch) :
    ∃ width swap, ∀ call ∈ stretch, ∃ value bits, call = .pack value width bits swap := by
  induction events generalizing runs calls with
  | nil =>
    cases h
    rw [List.infix_nil.1 hstretch]
    exact ⟨0, false, nofun⟩
  | cons event events ih =>
    obtain ⟨first, next, rest, hfirst, hrest, rfl⟩ := trackAll_cons_eq_ok_iff.1 h
    rcases List.infix_cons_iff.1 hstretch with hprefix | hinfix
    · rcases List.prefix_cons_iff.1 hprefix with rfl | ⟨stretch, rfl, hbegin⟩
      · exact ⟨0, false, nofun⟩
      · cases event with
        | stop =>
          cases hfirst
          exact absurd List.mem_cons_self hflush
        | field repr bits order value =>
          obtain ⟨width, hadd, rfl⟩ := Event.track_field_eq_ok_iff.1 hfirst
          obtain ⟨-, -, -, taken, hnext⟩ := add_eq_ok hadd
          exact ⟨width, order.reverses width, List.forall_mem_cons.2 ⟨⟨value, bits, rfl⟩,
            eq_pack_of_active hnext hrest hbegin (List.not_mem_of_not_mem_cons hflush)⟩⟩
    · exact ih hrest hinfix

/-! ## Packer and runs -/

/-- A packer that has sent out some bytes is where the runs are: the pending container is the last
one of the run that has not ended, and the only one whose bytes have not gone out yet. -/
inductive Matches : Runs → Packer → Nat → Prop
  | ended (written : Nat) : Matches ⟨none, written⟩ ⟨none⟩ written
  | filling {width : Nat} (word bits : Nat) (swap : Bool) (written : Nat) (hleast : 1 ≤ width)
    (hmost : width ≤ 8) :
    Matches ⟨some ⟨width, bits, swap⟩, written + width⟩ ⟨some ⟨word, width, bits, swap⟩⟩ written

namespace Matches

/-- What is pending is what the packer is behind. -/
theorem bytes_eq (h : Matches runs packer written) :
    runs.bytes = written + packer.pending.length := by
  cases h with
  | ended written => rfl
  | filling word bits swap written =>
    change written + _ = written + (wireBytes _ _ _).length
    rw [length_wireBytes]

/-- The packer takes a bit field that could be added, and keeps up with the runs. -/
theorem pack (h : Matches runs packer written) (hbits : 1 ≤ bits) (hvalue : value < 2 ^ bits)
    (hadd : runs.add repr.width bits order = .ok (width, next)) :
    ∃ bytes after, packer.pack value width bits (order.reverses width) = .ok (bytes, after) ∧
      Matches next after (written + bytes.length) := by
  have hpos : bits ≠ 0 := Nat.pos_iff_ne_zero.1 hbits
  cases h with
  | ended written =>
    obtain ⟨hroom, rfl, rfl⟩ := eq_of_add_ended hadd
    obtain ⟨hleast, hmost⟩ := repr.width_bounds
    have hcheck := Container.check_eq_ok_iff.2 ⟨hleast, hmost, hroom⟩
    refine ⟨[], _, Packer.pack_of_full hcheck hvalue hpos ?_, .filling _ _ _ written hleast hmost⟩
    rintro _ ⟨⟩
  | filling word taken swap written hleast hmost =>
    obtain ⟨hroom, rfl, rfl, rfl⟩ := eq_of_add_active hadd
    have hcheck := Container.check_eq_ok_iff.2 ⟨hleast, hmost, hroom⟩
    dsimp only
    by_cases hfull : 8 * width < taken + bits
    · -- The full container goes out just when the next one is counted.
      have hlength : (Container.bytes ⟨word, width, taken, order.reverses width⟩).length = width :=
        length_wireBytes width word _
      rw [if_pos hfull]
      refine ⟨_, _, Packer.pack_of_full hcheck hvalue hpos ?_, ?_⟩
      · rintro _ ⟨⟩
        exact Bool.eq_false_iff.2 fun h ↦ Nat.not_le.2 hfull (Container.hasRoom_iff.1 h).2
      · change Matches _ _ (written + (Container.bytes _).length)
        rw [hlength]
        exact .filling _ _ _ (written + width) hleast hmost
    · rw [if_neg hfull]
      refine ⟨[], _, Packer.pack_of_hasRoom hcheck hvalue hpos ?_ rfl,
        .filling _ _ _ written hleast hmost⟩
      exact Container.hasRoom_iff.2 ⟨rfl, Nat.not_lt.1 hfull⟩

/-- The call for one event succeeds, and keeps up with the runs. -/
theorem run_track (h : Matches runs packer written) (hfits : event.Fits)
    (htrack : event.track runs = .ok (call, next)) :
    ∃ bytes after, call.run packer = .ok (bytes, after) ∧
      Matches next after (written + bytes.length) := by
  cases event with
  | stop =>
    cases htrack
    refine ⟨packer.pending, {}, rfl, ?_⟩
    rw [← h.bytes_eq]
    exact .ended runs.bytes
  | field repr bits order value =>
    obtain ⟨width, hadd, rfl⟩ := Event.track_field_eq_ok_iff.1 htrack
    exact h.pack hfits.1 hfits.2 hadd

/-- From there on, all calls succeed, and what goes out is what the runs still come to. -/
theorem runAll (h : Matches runs packer written) (hfits : ∀ event ∈ events, event.Fits)
    (htrack : runs.trackAll events = .ok (calls, last)) :
    ∃ bytes, Packer.runAll packer (calls ++ [.flush]) = .ok (bytes, {}) ∧
      written + bytes.length = last.bytes := by
  induction events generalizing runs packer written calls with
  | nil =>
    cases htrack
    refine ⟨packer.pending ++ [], Packer.runAll_cons rfl rfl, ?_⟩
    rw [List.append_nil, h.bytes_eq]
  | cons event events ih =>
    obtain ⟨hevent, hevents⟩ := List.forall_mem_cons.1 hfits
    obtain ⟨call, next, rest, hcall, hrest, rfl⟩ := trackAll_cons_eq_ok_iff.1 htrack
    obtain ⟨bytes, after, hrun, hafter⟩ := h.run_track hevent hcall
    obtain ⟨more, hmore, hlength⟩ := ih hafter hevents hrest
    refine ⟨bytes ++ more, Packer.runAll_cons hrun hmore, ?_⟩
    rw [List.length_append, ← Nat.add_assoc, hlength]

end Matches

/-- Bit fields that could all be added can all be packed, whatever their values are, into the
containers that they have been given: as many bytes go out as have been counted, and all bit fields
with no end of a run between them have been given one container. -/
theorem runAll_of_trackAll (hfits : ∀ event ∈ events, event.Fits)
    (h : trackAll {} events = .ok (calls, last)) :
    (∃ bytes, Packer.runAll {} (calls ++ [.flush]) = .ok (bytes, {}) ∧
      bytes.length = last.bytes) ∧
    ∀ stretch, stretch <:+: calls → .flush ∉ stretch →
      ∃ width swap, ∀ call ∈ stretch, ∃ value bits, call = .pack value width bits swap := by
  constructor
  · obtain ⟨bytes, hrun, hlength⟩ := (Matches.ended 0).runAll hfits h
    exact ⟨bytes, hrun, by rwa [Nat.zero_add] at hlength⟩
  · intro stretch hstretch hflush
    exact exists_eq_pack h hstretch hflush

/-- Three runs: one of two containers, one with its highest byte first, and one of a single byte, in
which the orders agree. -/
def threeRuns : List Event :=
  [.field .u16 9 .little 300, .field .i64 4 .little 9, .field .u8 5 .little 21, .stop,
    .field .u32 20 .big 703710, .field .u8 3 .big 5, .stop,
    .field .u8 3 .big 5, .field .u16 3 .little 6]

/-- The calls that go with the three runs. -/
def threeRunsCalls : List Packer.Call :=
  [.pack 300 2 9 false, .pack 9 2 4 false, .pack 21 2 5 false, .flush,
    .pack 703710 4 20 true, .pack 5 4 3 true, .flush,
    .pack 5 1 3 false, .pack 6 1 3 false]

theorem runAll_threeRuns :
    trackAll {} threeRuns = .ok (threeRunsCalls, ⟨some ⟨1, 6, false⟩, 9⟩) ∧
      (∃ bytes, Packer.runAll {} (threeRunsCalls ++ [.flush]) = .ok (bytes, {}) ∧
        bytes.length = 9) ∧
      ∀ stretch, stretch <:+: threeRunsCalls → .flush ∉ stretch →
        ∃ width swap, ∀ call ∈ stretch, ∃ value bits, call = .pack value width bits swap := by
  have hfits : ∀ event ∈ threeRuns, event.Fits := by simp [threeRuns, Event.Fits]
  have h : trackAll {} threeRuns = .ok (threeRunsCalls, ⟨some ⟨1, 6, false⟩, 9⟩) := by decide
  exact ⟨h, runAll_of_trackAll hfits h⟩

end Runs
end WireFormat
