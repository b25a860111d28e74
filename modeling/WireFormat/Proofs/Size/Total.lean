import WireFormat.Proofs.Layout.Coherent
import WireFormat.Proofs.Layout.Tracking
import WireFormat.Proofs.Size.Rooms

/-!
# Least sizes as numbers

A descriptor keeps its least size as a machine word, and sums of words start again at zero.
`Descriptor.fullSize` counts the same with numbers, which do not.

* `Runs.Follows.bytes_eq` — a run counts the bytes of containers that every other field ends;
* `Descriptor.minSize_eq_ofNat_fullSize` — the word is what is left of the number.
-/

namespace WireFormat

variable {runs after last : Runs} {fields rest : List FieldDescriptor} {field : FieldDescriptor}

/-! ## Runs and containers -/

/-- The width of the containers of the run that has not ended, and the number of bits that have been
taken from the last one. -/
def Runs.use (runs : Runs) : Option (Nat × Nat) := runs.active.map fun run ↦ (run.width, run.bits)

/-- One more bit field is counted as it takes its bits. -/
theorem Runs.use_add {width bits container : Nat} {order : ByteOrder}
    (h : runs.add width bits order = .ok (container, after)) (more : List Room) :
    after.bytes + occupied after.use more =
      runs.bytes + occupied runs.use (.bits container bits :: more) := by
  obtain ⟨hle, -, heq⟩ := add_eq_ok_iff.1 h
  obtain ⟨active, bytes⟩ := runs
  cases active with
  | none =>
    change bits ≤ 8 * width at hle
    split at heq
    · next hfull =>
      change 8 * width < 0 + bits at hfull
      omega
    · cases heq
      change bytes + width + occupied (some (width, 0 + bits)) more =
        bytes + (width + occupied (some (width, bits)) more)
      rw [Nat.zero_add, Nat.add_assoc]
  | some run =>
    change _ = bytes + occupied (some (run.width, run.bits)) _
    split at heq
    · next hfull =>
      cases heq
      change 8 * run.width < run.bits + bits at hfull
      change bytes + run.width + occupied (some (run.width, bits)) more =
        bytes + occupied _ (.bits run.width bits :: more)
      rw [occupied_bits_of_full (fun hfits ↦ Nat.not_le.2 hfull hfits.2), Nat.add_assoc]
    · next hfits =>
      cases heq
      change ¬ 8 * run.width < run.bits + bits at hfits
      change bytes + occupied (some (run.width, run.bits + bits)) more =
        bytes + occupied _ (.bits run.width bits :: more)
      rw [occupied_bits_of_fits ⟨rfl, Nat.not_lt.1 hfits⟩]

/-- Padding after a bit field ends the run as it ends the container. -/
theorem Runs.use_add_padding {width bits container : Nat} {order : ByteOrder}
    (h : runs.add width bits order = .ok (container, after)) (padAfter : Bool) (more : List Room) :
    (if padAfter then after.close else after).bytes +
        occupied (if padAfter then after.close else after).use more =
      runs.bytes + occupied runs.use
        (.bits container bits :: ((if padAfter then [.align] else []) ++ more)) := by
  rw [← use_add h]
  cases padAfter with
  | false => rfl
  | true =>
    rw [if_pos rfl, if_pos rfl, List.singleton_append, occupied_align]
    rfl

theorem Runs.close_bytes (runs : Runs) (padAfter : Bool) :
    (if padAfter then runs.close.close else runs.close).bytes = runs.bytes := by
  cases padAfter <;> rfl

theorem Runs.close_use (runs : Runs) (padAfter : Bool) :
    (if padAfter then runs.close.close else runs.close).use = none := by
  cases padAfter <;> rfl

namespace FieldDescriptor

/-- The room that a field of the wire takes of its run: bits, or the end. -/
def runRooms (field : FieldDescriptor) : List Room :=
  match field.descriptor.kind with
  | .bits _ _ width container =>
    if width = 0 then [.align]
    else .bits container width :: (if field.padAfter then [.align] else [])
  | _ => [.align]

/-- The room that runs of bit fields take. -/
def runRoomsAll (fields : List FieldDescriptor) : List Room :=
  (fields.filter FieldDescriptor.serialize).flatMap runRooms

theorem runRoomsAll_cons (field : FieldDescriptor) (rest : List FieldDescriptor) :
    runRoomsAll (field :: rest) =
      (if field.serialize then field.runRooms else []) ++ runRoomsAll rest := by
  rw [runRoomsAll, List.filter_cons]
  cases field.serialize <;> rfl

/-- A field without bits ends the run. -/
theorem runRooms_of_not_bits (h : ∀ width ∈ field.descriptor.bitWidth?, width = 0) :
    field.runRooms = [.align] := by
  unfold runRooms
  split
  · next content repr width container hkind =>
    exact if_pos (h width (by rw [Descriptor.bitWidth?, hkind]; rfl))
  · rfl

/-- A bit field that its run leaves where it is takes bits of a container of the run. -/
theorem runRooms_of_withContainer {content : BitContent} {repr : IntegerKind}
    {width own container : Nat} (hkind : field.descriptor.kind = .bits content repr width own)
    (hwidth : width ≠ 0) (h : field.descriptor = field.descriptor.withContainer container) :
    field.runRooms = .bits container width :: (if field.padAfter then [.align] else []) := by
  have hsame := congrArg Descriptor.kind h
  rw [Descriptor.withContainer, hkind] at hsame
  injection hsame with _ _ _ hown
  rw [runRooms, hkind, ← hown]
  exact if_neg hwidth

/-- Without bits, runs take no bytes. -/
theorem occupied_runRoomsAll_of_not_bits
    (h : ∀ field ∈ fields, field.serialize → ∀ width ∈ field.descriptor.bitWidth?, width = 0) :
    occupied none (runRoomsAll fields) = 0 := by
  induction fields with
  | nil => rfl
  | cons field rest ih =>
    obtain ⟨hfield, hrest⟩ := List.forall_mem_cons.1 h
    rw [runRoomsAll_cons]
    cases hserialize : field.serialize with
    | false => exact ih hrest
    | true =>
      rw [if_pos rfl, runRooms_of_not_bits (hfield hserialize), List.singleton_append,
        occupied_align]
      exact ih hrest

end FieldDescriptor

open FieldDescriptor (runRoomsAll runRoomsAll_cons) in
/-- The bytes of a run are those of the containers that its bit fields take, each other field
ending the container. -/
theorem Runs.Follows.bytes_eq (h : Follows runs fields last) :
    last.bytes = runs.bytes + occupied runs.use (runRoomsAll fields) := by
  induction h with
  | nil => rfl
  | skip hskipped _ ih => rw [ih, runRoomsAll_cons, hskipped]; rfl
  | @field runs after last field rest hserialize htrack _ ih =>
    rw [ih, runRoomsAll_cons, if_pos hserialize]
    rcases RecordAnalysis.track_cases htrack with ⟨hbits, -, rfl⟩ |
      ⟨content, repr, width, own, container, hkind, hwidth, hadd, hcontainer⟩
    · rw [FieldDescriptor.runRooms_of_not_bits hbits, close_bytes, close_use,
        List.singleton_append, occupied_align]
    · rw [FieldDescriptor.runRooms_of_withContainer hkind hwidth hcontainer, List.cons_append]
      exact use_add_padding hadd field.padAfter _

/-! ## Sizes -/

mutual

/-- The least size of a descriptor, counted with numbers. -/
def Descriptor.fullSize : Descriptor → Nat
  | ⟨kind, _, _, _⟩ => kind.fullSize

/-- The least size of a kind.  The containers of bit fields are counted with the record. -/
def DescriptorKind.fullSize : DescriptorKind → Nat
  | .scalar kind => kind.width
  | .boolean repr | .enum repr _ => repr.width
  | .bits _ _ _ _ => 0
  | .text _ size => (size.policy?.bind SizePolicy.only?).getD 0
  | .list element size => size.only?.getD 0 * element.fullSize
  | .record _ fields =>
    FieldDescriptor.fullSizeAll fields + occupied none (FieldDescriptor.runRoomsAll fields)
  | .custom codec _ => codec.size.minSize

/-- The least size of the fields of a record, without containers. -/
def FieldDescriptor.fullSizeAll : List FieldDescriptor → Nat
  | [] => 0
  | ⟨_, _, descriptor, serialize, _, _⟩ :: rest =>
    (if serialize then descriptor.fullSize else 0) + FieldDescriptor.fullSizeAll rest

end

namespace FieldDescriptor

/-- The number of bytes that the field takes at least. -/
def fullSize (field : FieldDescriptor) : Nat :=
  if field.serialize then field.descriptor.fullSize else 0

theorem fullSizeAll_eq_sum (fields : List FieldDescriptor) :
    fullSizeAll fields = (fields.map fullSize).sum := by
  induction fields with
  | nil => rfl
  | cons field rest ih =>
    cases field
    rw [fullSizeAll, ih, List.map_cons, List.sum_cons]
    rfl

end FieldDescriptor

/-- The least size of a record, with the bytes that its runs have counted. -/
theorem Runs.Follows.fullSize_record {name : String} (h : Follows {} fields last) :
    (DescriptorKind.record name fields).fullSize =
      (fields.map FieldDescriptor.fullSize).sum + last.bytes := by
  rw [DescriptorKind.fullSize, FieldDescriptor.fullSizeAll_eq_sum, h.bytes_eq]
  exact congrArg _ (Nat.zero_add _).symm

theorem FieldDescriptor.leastAll_eq_ofNat
    (h : ∀ field ∈ fields, field.descriptor.minSize = .ofNat field.descriptor.fullSize) :
    leastAll fields = .ofNat (fields.map fullSize).sum := by
  induction fields with
  | nil => rfl
  | cons field rest ih =>
    obtain ⟨hfield, hrest⟩ := List.forall_mem_cons.1 h
    rw [leastAll, List.map_cons, List.sum_cons, UInt64.ofNat_add, ih hrest, least, fullSize]
    cases field.serialize with
    | false => rfl
    | true => rw [if_pos rfl, if_pos rfl, hfield]

/-- The word is what is left of the number. -/
theorem Descriptor.minSize_eq_ofNat_fullSize {descriptor : Descriptor}
    (hcoherent : descriptor.Everywhere Coherent) :
    descriptor.minSize = .ofNat descriptor.fullSize := by
  induction descriptor using Descriptor.induction with
  | step descriptor ihelement ihfields =>
    obtain ⟨kind, byteOrder, hasFixedSize, minSize⟩ := descriptor
    cases kind with
    | scalar kind | boolean repr | enum repr type | custom codec context => exact hcoherent.here
    | bits content repr width container => exact hcoherent.here.1
    | text encoding size => exact hcoherent.here.1
    | list element size =>
      change minSize = .ofNat (size.only?.getD 0 * element.fullSize)
      rw [UInt64.ofNat_mul, ← ihelement element rfl (hcoherent.of_element rfl)]
      exact hcoherent.here.1
    | record name fields =>
      obtain ⟨-, last, hfollows, hminSize⟩ := hcoherent.here
      have hsum : FieldDescriptor.leastAll fields = _ :=
        FieldDescriptor.leastAll_eq_ofNat fun field hmem ↦
          ihfields field hmem (hcoherent.of_field hmem)
      change minSize = .ofNat (DescriptorKind.record name fields).fullSize
      rw [hfollows.fullSize_record, UInt64.ofNat_add, ← hsum]
      exact hminSize

end WireFormat
