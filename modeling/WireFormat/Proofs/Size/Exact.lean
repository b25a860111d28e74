import WireFormat.Proofs.Layout.Elements
import WireFormat.Proofs.Size.Promise

/-!
# Descriptors whose values all take the same room

A descriptor has a fixed size if no length in it is read from the wire.  Then the least room is the
only one, and no list in it can be empty, so that each field ends the container but for bit fields.
With that, runs and containers end together, and the least size is the size.

* `Descriptor.FixedInside` — what has a fixed size consists of what has;
* `Descriptor.Exact` — the size that is counted is the size of the least room;
* `Descriptor.sameRoom_of_writes` — every value takes the least room.
-/

namespace WireFormat

/-! ## What has a fixed size -/

/-- If all values take the same number of bytes, nothing inside says otherwise. -/
def Descriptor.FixedInside (descriptor : Descriptor) : Prop :=
  descriptor.hasFixedSize →
    match descriptor.kind with
    | .text _ size => (size.policy?.bind SizePolicy.only?).isSome
    | .list element size => size.only?.isSome ∧ element.hasFixedSize
    | .record _ fields => ∀ field ∈ fields, field.serialize → field.descriptor.hasFixedSize
    | _ => True

/-- The room of something is as large as counted, and then nothing is pending. -/
def Descriptor.Exact (descriptor : Descriptor) : Prop :=
  ∀ pending more, descriptor.fullSize + occupied none more =
    occupied pending (descriptor.leastRooms ++ more)

/-- Bit fields are not counted by themselves. -/
theorem FieldDescriptor.fullSize_of_packs {field : FieldDescriptor} (h : field.packs) :
    field.fullSize = 0 := by
  obtain ⟨hserialize, hbits⟩ := Bool.and_eq_true_iff.1 h
  rw [fullSize, if_pos hserialize]
  obtain ⟨name, order, ⟨kind, byteOrder, hasFixedSize, minSize⟩, serialize, lengthOf, padAfter⟩ :=
    field
  cases kind with
  | bits => rfl
  | _ => cases hbits

namespace Runs.Follows

open FieldDescriptor (leastRoomsAll fullSize)

variable {runs last : Runs} {fields : List FieldDescriptor}

/-- The bytes of the runs are those of the containers if every field of the wire ends the container
but for bit fields. -/
theorem sum_fullSize_eq (h : Follows runs fields last)
    (hexact : ∀ field ∈ fields, field.serialize → field.packs = false → field.descriptor.Exact)
    (more : List Room) :
    (fields.map fullSize).sum + last.bytes + occupied none more =
      runs.bytes + occupied runs.use (leastRoomsAll fields ++ .align :: more) := by
  induction h with
  | nil => simp [leastRoomsAll]
  | @skip runs last field rest hskipped _ ih =>
    have hrest := ih (List.forall_mem_cons.1 hexact).2
    simpa [FieldDescriptor.leastRoomsAll_cons, fullSize, hskipped] using hrest
  | @field runs after last field rest hserialize htrack _ ih =>
    obtain ⟨hfield, hexact⟩ := List.forall_mem_cons.1 hexact
    have hmore := ih hexact
    rw [FieldDescriptor.leastRoomsAll_cons, if_pos hserialize, List.append_assoc,
      List.append_assoc, List.map_cons, List.sum_cons]
    rcases RecordAnalysis.track_cases htrack with ⟨hbits, -, rfl⟩ |
      ⟨content, repr, width, own, container, hkind, hwidth, hadd, hcontainer⟩
    · have hown := hfield hserialize (FieldDescriptor.packs_eq_false_iff.2 fun _ ↦ hbits) runs.use
        ((if field.padAfter then [.align] else []) ++ (leastRoomsAll rest ++ .align :: more))
      have hleast : field.fullSize = field.descriptor.fullSize := if_pos hserialize
      rw [occupied_none_padding] at hown
      rw [close_bytes, close_use] at hmore
      omega
    · have hleast : field.fullSize = 0 :=
        FieldDescriptor.fullSize_of_packs (FieldDescriptor.packs_of_kind hserialize hkind hwidth)
      have hadded := use_add_padding hadd field.padAfter (leastRoomsAll rest ++ .align :: more)
      rw [Descriptor.leastRooms_of_withContainer hkind hwidth hcontainer, List.singleton_append]
      omega

end Runs.Follows

theorem SizePolicy.slots?_of_only? {κ : Type} {policy : SizePolicy κ} (h : policy.only?.isSome) :
    policy.slots? = policy.only? := by
  cases policy with
  | fixed slots => rfl
  | _ => cases h

namespace Descriptor

variable {byteOrder : ByteOrder} {hasFixedSize : Bool} {minSize : UInt64} {descriptor : Descriptor}

theorem Exact.replicate {element : Descriptor} (h : element.Exact) (count : Nat)
    (more : List Room) : count * element.fullSize + occupied none more =
      occupied none ((List.replicate count element.leastRooms).flatten ++ more) := by
  induction count with
  | zero => simp
  | succ count ih =>
    have helement := h none ((List.replicate count element.leastRooms).flatten ++ more)
    rw [List.replicate_succ, List.flatten_cons, List.append_assoc, Nat.succ_mul]
    omega

theorem exact_text {encoding : Encoding} {size : TextSize String}
    (hfixed : (size.policy?.bind SizePolicy.only?).isSome) :
    Exact ⟨.text encoding size, byteOrder, hasFixedSize, minSize⟩ := by
  intro pending more
  obtain ⟨slots, hslots⟩ := Option.isSome_iff_exists.1 hfixed
  change (size.policy?.bind SizePolicy.only?).getD 0 + _ =
    occupied pending (Room.bytes size.leastCount ++ more)
  rw [occupied_bytes, hslots]
  cases size with
  | nullTerminated => cases hslots
  | sized policy =>
    rw [TextSize.leastCount, SizePolicy.slots?_of_only? hfixed,
      show policy.only? = some slots from hslots]

/-- A list that cannot be empty ends the container with its first element. -/
theorem exact_list {element : Descriptor} {size : SizePolicy String}
    (hslots : size.slots? ≠ some 0) (hfixed : size.only?.isSome) (helement : element.Exact) :
    Exact ⟨.list element size, byteOrder, hasFixedSize, minSize⟩ := by
  intro pending more
  rw [SizePolicy.slots?_of_only? hfixed] at hslots
  obtain ⟨slots, hsome⟩ := Option.isSome_iff_exists.1 hfixed
  obtain ⟨count, rfl⟩ := Nat.exists_eq_succ_of_ne_zero fun hzero ↦ hslots (hzero ▸ hsome)
  have hfirst := helement pending ((List.replicate count element.leastRooms).flatten ++ more)
  have hmore := helement.replicate count more
  change size.only?.getD 0 * element.fullSize + _ =
    occupied pending ((List.replicate (size.slots?.getD 0) element.leastRooms).flatten ++ more)
  rw [SizePolicy.slots?_of_only? hfixed, hsome, Option.getD_some, List.replicate_succ,
    List.flatten_cons, List.append_assoc, Nat.succ_mul]
  omega

/-- What has a fixed size and is no bit field takes the bytes that are counted. -/
theorem exact (hcoherent : descriptor.Everywhere Coherent)
    (hcodec : descriptor.Everywhere fun inner ↦ inner.isCodec = false)
    (hwhole : descriptor.Everywhere HoldsWhole) (hinside : descriptor.Everywhere FixedInside)
    (hfixed : descriptor.hasFixedSize) (hbits : ∀ width ∈ descriptor.bitWidth?, width = 0) :
    descriptor.Exact := by
  induction descriptor using Descriptor.induction with
  | step descriptor ihelement ihfields =>
    obtain ⟨kind, byteOrder, hasFixedSize, minSize⟩ := descriptor
    cases kind with
    | scalar kind | boolean repr | enum repr type =>
      intro pending more
      change _ = occupied pending (Room.bytes _ ++ more)
      rw [occupied_bytes]
      rfl
    | bits content repr width container =>
      intro pending more
      obtain rfl : width = 0 := hbits width rfl
      change 0 + _ = occupied pending (.align :: more)
      rw [occupied_align, Nat.zero_add]
    | text encoding size => exact exact_text (hinside.here hfixed)
    | list element size =>
      obtain ⟨hsome, hfixed⟩ := hinside.here hfixed
      exact exact_list hcoherent.here.2 hsome (ihelement element rfl (hcoherent.of_element rfl)
        (hcodec.of_element rfl) (hwhole.of_element rfl) (hinside.of_element rfl) hfixed
        (by rw [hwhole.here element rfl]; nofun))
    | record name fields =>
      intro pending more
      obtain ⟨-, last, hfollows, -⟩ := hcoherent.here
      change (DescriptorKind.record name fields).fullSize + _ =
        occupied pending (.align :: (FieldDescriptor.leastRoomsAll fields ++ [.align]) ++ more)
      rw [List.cons_append, occupied_align, List.append_assoc, List.singleton_append]
      have hsum := hfollows.sum_fullSize_eq (fun field hmem hserialize hpacks ↦
        ihfields field hmem (hcoherent.of_field hmem) (hcodec.of_field hmem)
          (hwhole.of_field hmem) (hinside.of_field hmem)
          (hinside.here hfixed field hmem hserialize)
          (FieldDescriptor.packs_eq_false_iff.1 hpacks hserialize)) more
      rw [hfollows.fullSize_record]
      change _ = 0 + occupied none _ at hsum
      omega
    | custom codec context => cases hcodec.here

end Descriptor

/-! ## The room of a value -/

/-- Two rooms take the same bytes, whatever is pending before and whatever comes after. -/
def SameRoom (rooms more : List Room) : Prop :=
  ∀ pending after, occupied pending (rooms ++ after) = occupied pending (more ++ after)

namespace SameRoom

variable {rooms rooms' more more' : List Room}

theorem refl (rooms : List Room) : SameRoom rooms rooms := fun _ _ ↦ rfl

theorem append_left (h : SameRoom rooms more) (before : List Room) :
    SameRoom (before ++ rooms) (before ++ more) := by
  intro pending after
  induction before generalizing pending with
  | nil => exact h pending after
  | cons room before ih =>
    have hle : ∀ pending, occupied pending (before ++ rooms ++ after) ≤
        occupied pending (before ++ more ++ after) := fun pending ↦ (ih pending).le
    have hge : ∀ pending, occupied pending (before ++ more ++ after) ≤
        occupied pending (before ++ rooms ++ after) := fun pending ↦ (ih pending).ge
    exact Nat.le_antisymm (occupied_cons_le_cons room hle pending)
      (occupied_cons_le_cons room hge pending)

theorem append (h : SameRoom rooms more) (h' : SameRoom rooms' more') :
    SameRoom (rooms ++ rooms') (more ++ more') := by
  intro pending after
  rw [List.append_assoc, h, ← List.append_assoc, h'.append_left, List.append_assoc]

/-- Bytes that follow each other take the room of all of them. -/
theorem bytes_append (first second : Nat) :
    SameRoom (Room.bytes first ++ Room.bytes second) (Room.bytes (first + second)) := by
  intro pending after
  rw [List.append_assoc, occupied_bytes, occupied_bytes, occupied_bytes, Nat.add_assoc]

theorem flatMap {α : Type} {parts : List α} {f : α → List Room}
    (h : ∀ part ∈ parts, SameRoom (f part) rooms) :
    SameRoom (parts.flatMap f) (List.replicate parts.length rooms).flatten := by
  induction parts with
  | nil => exact .refl []
  | cons part parts ih =>
    obtain ⟨hpart, hparts⟩ := List.forall_mem_cons.1 h
    exact hpart.append (ih hparts)

end SameRoom

end WireFormat
