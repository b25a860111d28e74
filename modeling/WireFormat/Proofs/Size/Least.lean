import WireFormat.Proofs.Format.Writes
import WireFormat.Proofs.Layout.Coherent
import WireFormat.Proofs.Size.Rooms

/-!
# The least room of a value

`Descriptor.leastRooms` is the room that a value takes in which every list is empty that may be, and
every text.  All values take that room at least, in the same order.

* `Descriptor.leastRooms_sublist` — the moves of a value take no less;
* `Descriptor.leastSize` — the number of bytes of the least room.
-/

namespace WireFormat

/-- The number of bytes that a text takes at least, with its zeros. -/
def TextSize.leastCount {κ : Type} : TextSize κ → Nat
  | nullTerminated => 1
  | sized policy => policy.slots?.getD 0

mutual

/-- The room that every value takes. -/
def Descriptor.leastRooms : Descriptor → List Room
  | ⟨kind, _, _, _⟩ => kind.leastRooms

/-- The room that every value of a kind takes.  A list that may be empty takes none, not even the
end of a container. -/
def DescriptorKind.leastRooms : DescriptorKind → List Room
  | .scalar kind => Room.bytes kind.width
  | .boolean repr | .enum repr _ => Room.bytes repr.width
  | .bits _ _ width container => if width = 0 then [.align] else [.bits container width]
  | .text _ size => Room.bytes size.leastCount
  | .list element size => (List.replicate (size.slots?.getD 0) element.leastRooms).flatten
  | .record _ fields => .align :: FieldDescriptor.leastRoomsAll fields ++ [.align]
  | .custom _ _ => []

/-- The room that the members of a record take. -/
def FieldDescriptor.leastRoomsAll : List FieldDescriptor → List Room
  | [] => []
  | ⟨_, _, descriptor, serialize, _, padAfter⟩ :: rest =>
    (if serialize then descriptor.leastRooms ++ (if padAfter then [.align] else []) else []) ++
      FieldDescriptor.leastRoomsAll rest

end

/-- The number of bytes that every value takes. -/
def Descriptor.leastSize (descriptor : Descriptor) : Nat := occupied none descriptor.leastRooms

theorem Descriptor.leastRooms_eq (descriptor : Descriptor) :
    descriptor.leastRooms = descriptor.kind.leastRooms := by
  cases descriptor
  rfl

/-! ## Moves -/

theorem FieldDescriptor.leastRoomsAll_cons (field : FieldDescriptor)
    (rest : List FieldDescriptor) : leastRoomsAll (field :: rest) =
      (if field.serialize then
        field.descriptor.leastRooms ++ (if field.padAfter then [.align] else [])
      else []) ++ leastRoomsAll rest := by
  cases field
  rfl

theorem Room.bytes_sublist_append {first second count : Nat} (h : count ≤ first + second) :
    (Room.bytes count).Sublist (Room.bytes first ++ Room.bytes second) := by
  have hbytes : (List.replicate count byte).Sublist
      (List.replicate first byte ++ List.replicate second byte) := by
    rw [List.replicate_append_replicate]
    exact List.replicate_sublist_replicate _ |>.2 h
  exact (hbytes.trans (List.Sublist.append_left (List.sublist_cons_self ..) _)).cons_cons align

theorem TextSize.leastRooms_sublist {κ : Type} {encoding : Encoding} {bytes : List UInt8}
    {size : TextSize κ} {moves : List Move} (h : size.Writes encoding bytes moves) :
    (Room.bytes size.leastCount).Sublist (moves.flatMap Move.rooms) := by
  cases h with
  | nullTerminated =>
    simp only [List.flatMap_cons, List.flatMap_nil, List.append_nil, Move.rooms]
    exact Room.bytes_sublist_append (Nat.le_add_left ..)
  | keyed =>
    simp only [List.flatMap_cons, List.flatMap_nil, List.append_nil, Move.rooms]
    exact Room.bytes_sublist_append (Nat.zero_le _)
  | fixed le | padded _ le =>
    simp only [List.flatMap_cons, List.flatMap_nil, List.append_nil, Move.rooms]
    refine Room.bytes_sublist_append ?_
    rw [List.length_replicate, Nat.add_sub_cancel' le]
    exact Nat.le_refl _

/-- Elements that each take some room take it as often as there are elements. -/
theorem flatten_replicate_sublist {α : Type} {rooms : List Room} {f : α → List Room}
    {parts : List α} {count : Nat} (hcount : count ≤ parts.length)
    (h : ∀ part ∈ parts, rooms.Sublist (f part)) :
    (List.replicate count rooms).flatten.Sublist (parts.flatMap f) := by
  induction parts generalizing count with
  | nil =>
    obtain rfl : count = 0 := Nat.le_zero.1 hcount
    exact List.nil_sublist _
  | cons part parts ih =>
    obtain ⟨hpart, hparts⟩ := List.forall_mem_cons.1 h
    cases count with
    | zero => exact List.nil_sublist _
    | succ count =>
      rw [List.replicate_succ, List.flatten_cons, List.flatMap_cons]
      exact hpart.append (ih (Nat.le_of_succ_le_succ hcount) hparts)

/-- A filled list has as many items as there are slots, and is as long as it was without any. -/
theorem SizePolicy.length_of_filled? {κ : Type} {policy : SizePolicy κ} {default? : Option Value}
    {items filled : List Value} (h : policy.filled? default? items = some filled) :
    filled.length = policy.slots?.getD items.length := by
  unfold filled? at h
  cases hslots : policy.slots? with
  | none =>
    rw [hslots] at h
    cases h
    rfl
  | some slots =>
    rw [hslots] at h
    dsimp only at h
    split at h
    · cases h
    · next hle =>
      split at h
      · next heq =>
        cases h
        exact heq.symm
      · obtain ⟨value, -, rfl⟩ := Option.map_eq_some_iff.1 h
        rw [List.length_append, List.length_replicate, Nat.add_sub_cancel' (Nat.not_lt.1 hle)]
        rfl

namespace Descriptor

/-- A length takes the room of the field that carries it. -/
theorem rooms_of_writesLength {descriptor : Descriptor} {length : Nat} {moves : List Move}
    (h : descriptor.kind.WritesLength descriptor.byteOrder length moves) :
    moves.flatMap Move.rooms = descriptor.leastRooms := by
  obtain ⟨kind, byteOrder, hasFixedSize, minSize⟩ := descriptor
  cases kind with
  | scalar kind =>
    obtain ⟨raw, -, rfl⟩ := h
    rw [List.flatMap_singleton, Move.rooms, length_wireBytes]
    rfl
  | bits content repr width container =>
    cases content with
    | integer =>
      obtain ⟨bits, hbits, rfl⟩ := h
      change [Room.bits container width] = if width = 0 then _ else _
      split
      · next hwidth =>
        subst hwidth
        simp [bitsOf] at hbits
      · rfl
    | _ => cases h
  | _ => cases h

end Descriptor

/-- The members of a record take no less than the least room of its fields. -/
theorem FieldDescriptor.leastRoomsAll_sublist {demands : List Demand} {members : Members}
    {fields : List FieldDescriptor} {moves : List Move}
    (hfields : ∀ field ∈ fields, field.serialize → ∀ value moves,
      field.descriptor.Writes value moves →
        field.descriptor.leastRooms.Sublist (moves.flatMap Move.rooms))
    (h : WritesAll demands members fields moves) :
    (leastRoomsAll fields).Sublist (moves.flatMap Move.rooms) := by
  induction fields generalizing moves with
  | nil => exact List.nil_sublist _
  | cons field rest ih =>
    obtain ⟨hfield, hrest⟩ := List.forall_mem_cons.1 hfields
    rw [leastRoomsAll_cons]
    cases hserialize : field.serialize with
    | false => exact ih hrest ((writesAll_cons_of_not_serialize hserialize).1 h)
    | true =>
      obtain ⟨own, more, hown, hmore, rfl⟩ := (writesAll_cons_of_serialize hserialize).1 h
      rw [if_pos rfl, List.flatMap_append, List.flatMap_append]
      refine List.Sublist.append (List.Sublist.append ?_ ?_) (ih hrest hmore)
      · cases hlength : field.lengthOf with
        | none =>
          rw [hlength] at hown
          obtain ⟨value, -, hwrites⟩ := hown
          exact hfield hserialize value own hwrites
        | some key =>
          rw [hlength] at hown
          obtain ⟨feed, length, -, -, hwrites⟩ := hown
          rw [Descriptor.rooms_of_writesLength hwrites]
      · cases field.padAfter <;> exact List.Sublist.refl _

namespace Descriptor

/-- The moves of a value take no less than the least room. -/
theorem leastRooms_sublist {descriptor : Descriptor} {value : Value} {moves : List Move}
    (h : descriptor.Writes value moves) :
    descriptor.leastRooms.Sublist (moves.flatMap Move.rooms) := by
  induction descriptor using Descriptor.induction generalizing value moves with
  | step descriptor ihelement ihfields =>
    obtain ⟨kind, byteOrder, hasFixedSize, minSize⟩ := descriptor
    cases kind with
    | scalar kind | boolean repr | enum repr type =>
      obtain ⟨raw, -, rfl⟩ := h
      rw [List.flatMap_singleton, Move.rooms, length_wireBytes]
      exact List.Sublist.refl _
    | bits content repr width container =>
      change if width = 0 then _ else _ at h
      change List.Sublist (if width = 0 then _ else _) _
      split at h
      · next hwidth =>
        rw [if_pos hwidth, h]
        exact List.Sublist.refl _
      · next hwidth =>
        obtain ⟨bits, -, rfl⟩ := h
        rw [if_neg hwidth]
        exact List.Sublist.refl _
    | text encoding size =>
      obtain ⟨text, bytes, -, -, hwrites⟩ := h
      exact TextSize.leastRooms_sublist hwrites
    | list element size =>
      obtain ⟨items, filled, parts, -, hfilled, hparts, rfl⟩ := h
      have hall : ∀ item ∈ filled, True := fun _ _ ↦ trivial
      have hrooms : ∀ part ∈ parts, element.leastRooms.Sublist (part.flatMap Move.rooms) := by
        refine (forall₂_forall_mem_iff hparts fun item _ part hwrites ↦ ?_).1 hall
        rw [true_iff]
        exact ihelement element rfl hwrites
      rw [List.flatten_eq_flatMap, List.flatMap_assoc]
      refine flatten_replicate_sublist ?_ hrooms
      rw [← hparts.length_eq, SizePolicy.length_of_filled? hfilled]
      cases size.slots? <;> simp
    | record name fields =>
      obtain ⟨members, inner, -, hwrites, rfl⟩ := h
      rw [List.flatMap_append, List.flatMap_cons]
      have hinner := FieldDescriptor.leastRoomsAll_sublist
        (fun field hmem _ value moves ↦ ihfields field hmem) hwrites
      exact (hinner.cons_cons _).append (List.Sublist.refl _)
    | custom codec context => exact h.elim

end Descriptor

end WireFormat
