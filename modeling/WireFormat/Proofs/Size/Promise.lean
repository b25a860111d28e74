import WireFormat.Proofs.Layout.Codecs
import WireFormat.Proofs.Size.Least
import WireFormat.Proofs.Size.Total

/-!
# The least size that a layout promises

The least size of a record is counted with the runs of bit fields, each of which ends with the first
field that is no bit field.  Its least room is counted with the containers.  The two differ where a
run ends and the container does not: at a list that may be empty.

* `Descriptor.keepsPromise` — no more is counted than is needed if no such list comes between two
  bit fields;
* `Descriptor.minSize_le_leastSize` — so no more is promised, since a machine word holds no more
  than the number.
-/

namespace WireFormat

mutual

/-- Whether a container that is at hand ends with every value. -/
def Descriptor.endsContainer : Descriptor → Bool
  | ⟨kind, _, _, _⟩ => kind.endsContainer

/-- Whether a container that is at hand ends with every value of a kind.  An empty list does not end
it, whatever the elements are. -/
def DescriptorKind.endsContainer : DescriptorKind → Bool
  | .bits _ _ width _ => width == 0
  | .list element size => size.slots?.isSome && element.endsContainer
  | _ => true

end

theorem Descriptor.endsContainer_eq (descriptor : Descriptor) :
    descriptor.endsContainer = descriptor.kind.endsContainer := by
  cases descriptor
  rfl

namespace FieldDescriptor

/-- Whether the field takes bits of a container. -/
def packs (field : FieldDescriptor) : Bool :=
  field.serialize && field.descriptor.bitWidth?.any (· != 0)

theorem packs_eq_false_iff {field : FieldDescriptor} : field.packs = false ↔
    (field.serialize → ∀ width ∈ field.descriptor.bitWidth?, width = 0) := by
  rw [packs]
  cases field.serialize with
  | false => simp
  | true => cases field.descriptor.bitWidth? <;> simp

theorem packs_of_kind {field : FieldDescriptor} {content : BitContent} {repr : IntegerKind}
    {width own : Nat} (hserialize : field.serialize)
    (hkind : field.descriptor.kind = .bits content repr width own) (hwidth : width ≠ 0) :
    field.packs := by
  simp [packs, hserialize, Descriptor.bitWidth?, hkind, hwidth]

/-- Whether the run of bit fields ends with the field, but the container may not. -/
def isPassive (field : FieldDescriptor) : Bool :=
  field.serialize && !field.packs && !field.padAfter && !field.descriptor.endsContainer

/-- No field in which a container may go on comes between two bit fields. -/
def Uninterrupted (fields : List FieldDescriptor) : Prop :=
  ∀ before field after, fields = before ++ field :: after → field.isPassive →
    (∀ other ∈ before, other.packs = false) ∨ ∀ other ∈ after, other.packs = false

end FieldDescriptor

variable {runs after last : Runs} {fields rest : List FieldDescriptor} {field : FieldDescriptor}

/-! ## Runs and containers -/

/-- A bit field that its run leaves where it is takes bits of a container of the run. -/
theorem Descriptor.leastRooms_of_withContainer {descriptor : Descriptor} {content : BitContent}
    {repr : IntegerKind} {width own container : Nat}
    (hkind : descriptor.kind = .bits content repr width own) (hwidth : width ≠ 0)
    (h : descriptor = descriptor.withContainer container) :
    descriptor.leastRooms = [.bits container width] := by
  have hsame := congrArg Descriptor.kind h
  rw [withContainer, hkind] at hsame
  injection hsame with _ _ _ hown
  rw [leastRooms_eq, hkind, DescriptorKind.leastRooms, if_neg hwidth, hown]

/-- Once the container has ended, padding takes nothing. -/
theorem occupied_none_padding (padAfter : Bool) (more : List Room) :
    occupied none ((if padAfter then [.align] else []) ++ more) = occupied none more := by
  cases padAfter <;> simp

/-! ## Fields -/

/-- No more is counted than is needed, whatever is pending before: what ends the container takes its
size by itself, and nothing is counted for anything else. -/
def Descriptor.KeepsPromise (descriptor : Descriptor) : Prop :=
  (descriptor.endsContainer → ∀ pending more,
    descriptor.fullSize + occupied none more ≤ occupied pending (descriptor.leastRooms ++ more)) ∧
  (descriptor.endsContainer = false → descriptor.fullSize = 0)

namespace FieldDescriptor

/-- After a field that ends the container, and after padding, nothing is pending. -/
theorem fullSize_add_le (hkeeps : field.descriptor.KeepsPromise) (pending : Option (Nat × Nat))
    (more : List Room) :
    field.fullSize + occupied (if field.padAfter || field.descriptor.endsContainer then none
      else pending) more ≤
      occupied pending (field.descriptor.leastRooms ++
        ((if field.padAfter then [.align] else []) ++ more)) := by
  have hleast : field.fullSize ≤ field.descriptor.fullSize := by
    rw [fullSize]
    split
    · exact Nat.le_refl _
    · exact Nat.zero_le _
  cases hends : field.descriptor.endsContainer with
  | true =>
    have hkept := hkeeps.1 hends pending ((if field.padAfter then [.align] else []) ++ more)
    rw [occupied_none_padding] at hkept
    rw [Bool.or_true, if_pos rfl]
    omega
  | false =>
    rw [hkeeps.2 hends, Nat.le_zero] at hleast
    rw [hleast, Nat.zero_add, Bool.or_false]
    refine Nat.le_trans ?_ (occupied_le_of_sublist (List.sublist_append_right ..) pending)
    cases field.padAfter with
    | true => simp
    | false => exact Nat.le_refl _

end FieldDescriptor

namespace Runs.Follows

open FieldDescriptor (leastRoomsAll fullSize)

/-- Without bit fields, it does not matter what is pending. -/
theorem sum_fullSize_le_of_not_packs (h : Follows runs fields last)
    (hkeeps : ∀ field ∈ fields, field.serialize → field.descriptor.KeepsPromise)
    (hpacks : ∀ field ∈ fields, field.packs = false) (pending : Option (Nat × Nat))
    (more : List Room) :
    (fields.map fullSize).sum + last.bytes + occupied none more ≤
      runs.bytes + occupied pending (leastRoomsAll fields ++ .align :: more) := by
  induction h generalizing pending with
  | nil => simp [leastRoomsAll]
  | @skip runs last field rest hskipped _ ih =>
    have hrest := ih (List.forall_mem_cons.1 hkeeps).2 (List.forall_mem_cons.1 hpacks).2 pending
    simpa [FieldDescriptor.leastRoomsAll_cons, fullSize, hskipped] using hrest
  | @field runs after last field rest hserialize htrack _ ih =>
    obtain ⟨hfield, hrest⟩ := List.forall_mem_cons.1 hkeeps
    obtain ⟨hfieldPacks, hrestPacks⟩ := List.forall_mem_cons.1 hpacks
    rcases RecordAnalysis.track_cases htrack with ⟨-, -, rfl⟩ |
      ⟨content, repr, width, own, container, hkind, hwidth, -⟩
    · have hown := FieldDescriptor.fullSize_add_le (hfield hserialize) pending
        (leastRoomsAll rest ++ .align :: more)
      have hmore := ih hrest hrestPacks (if field.padAfter || field.descriptor.endsContainer then
        none else pending)
      have hbytes : (if field.padAfter then runs.close.close else runs.close).bytes =
          runs.bytes := by
        split <;> rfl
      rw [hbytes] at hmore
      rw [FieldDescriptor.leastRoomsAll_cons, if_pos hserialize, List.append_assoc,
        List.append_assoc, List.map_cons, List.sum_cons]
      omega
    · cases (FieldDescriptor.packs_of_kind hserialize hkind hwidth).symm.trans hfieldPacks

/-- As long as runs and containers end together, the bytes of the runs are those of the containers;
and where they do not, no bit fields follow. -/
theorem sum_fullSize_le (h : Follows runs fields last)
    (hkeeps : ∀ field ∈ fields, field.serialize → field.descriptor.KeepsPromise)
    (hpassive : ∀ before field after, fields = before ++ field :: after → field.isPassive →
      runs.use = none ∧ (∀ other ∈ before, other.packs = false) ∨
        ∀ other ∈ after, other.packs = false) (more : List Room) :
    (fields.map fullSize).sum + last.bytes + occupied none more ≤
      runs.bytes + occupied runs.use (leastRoomsAll fields ++ .align :: more) := by
  induction h with
  | nil => simp [leastRoomsAll]
  | @skip runs last field rest hskipped _ ih =>
    have hrest := ih (List.forall_mem_cons.1 hkeeps).2 fun before other after hsplit hother ↦
      (hpassive (field :: before) other after (hsplit ▸ rfl) hother).imp_left fun hnone ↦
        ⟨hnone.1, (List.forall_mem_cons.1 hnone.2).2⟩
    simpa [FieldDescriptor.leastRoomsAll_cons, fullSize, hskipped] using hrest
  | @field runs after last field rest hserialize htrack hfollows ih =>
    obtain ⟨hfield, hrest⟩ := List.forall_mem_cons.1 hkeeps
    rw [FieldDescriptor.leastRoomsAll_cons, if_pos hserialize, List.append_assoc,
      List.append_assoc, List.map_cons, List.sum_cons]
    rcases RecordAnalysis.track_cases htrack with ⟨hbits, -, rfl⟩ |
      ⟨content, repr, width, own, container, hkind, hwidth, hadd, hcontainer⟩
    · have hpacks : field.packs = false := FieldDescriptor.packs_eq_false_iff.2 fun _ ↦ hbits
      have hown := FieldDescriptor.fullSize_add_le (hfield hserialize) runs.use
        (leastRoomsAll rest ++ .align :: more)
      have hbytes := close_bytes runs field.padAfter
      by_cases hnone : (if field.padAfter || field.descriptor.endsContainer then none
        else runs.use) = none
      · have hmore := ih hrest fun before other after hsplit hother ↦
          (hpassive (field :: before) other after (hsplit ▸ rfl) hother).imp_left fun hbefore ↦
            ⟨close_use runs field.padAfter, (List.forall_mem_cons.1 hbefore.2).2⟩
        rw [hbytes, close_use] at hmore
        rw [hnone] at hown
        omega
      · rw [ite_eq_left_iff, Classical.not_imp, Bool.not_eq_true, Bool.or_eq_false_iff] at hnone
        obtain ⟨⟨hpad, hends⟩, huse⟩ := hnone
        have hlater : ∀ other ∈ rest, other.packs = false :=
          (hpassive [] field rest rfl (by simp [FieldDescriptor.isPassive, *])).resolve_left
            fun hbefore ↦ huse hbefore.1
        have hmore := hfollows.sum_fullSize_le_of_not_packs hrest hlater runs.use more
        rw [hbytes] at hmore
        rw [hpad, hends, Bool.or_self, if_neg (by simp)] at hown
        rw [hpad]
        omega
    · have hleast : field.fullSize = 0 := by
        rw [fullSize, if_pos hserialize]
        refine (hfield hserialize).2 ?_
        rw [Descriptor.endsContainer_eq, hkind]
        exact beq_false_of_ne hwidth
      have hadded := use_add_padding hadd field.padAfter (leastRoomsAll rest ++ .align :: more)
      have hpacks := FieldDescriptor.packs_of_kind hserialize hkind hwidth
      have hmore := ih hrest fun before other after hsplit hother ↦
        .inr ((hpassive (field :: before) other after (hsplit ▸ rfl) hother).resolve_left
          fun hbefore ↦ Bool.eq_false_iff.1 (List.forall_mem_cons.1 hbefore.2).1 hpacks)
      rw [Descriptor.leastRooms_of_withContainer hkind hwidth hcontainer, List.singleton_append]
      omega

end Runs.Follows

/-! ## Descriptors -/

theorem SizePolicy.only?_le_slots? {κ : Type} (policy : SizePolicy κ) :
    policy.only?.getD 0 ≤ policy.slots?.getD 0 := by
  cases policy with
  | keyed _ => exact Nat.le_refl _
  | fixed slots => exact Nat.le_refl _
  | padded _ slots => exact Nat.zero_le _

namespace Descriptor

variable {byteOrder : ByteOrder} {hasFixedSize : Bool} {minSize : UInt64}

/-- What takes some bytes, and ends the container then, takes them as often as it is repeated. -/
theorem mul_fullSize_le {element : Descriptor} (hkeeps : element.KeepsPromise)
    (hends : element.endsContainer) (count : Nat) (more : List Room) :
    count * element.fullSize + occupied none more ≤
      occupied none ((List.replicate count element.leastRooms).flatten ++ more) := by
  induction count with
  | zero => simp
  | succ count ih =>
    have helement := hkeeps.1 hends none
      ((List.replicate count element.leastRooms).flatten ++ more)
    rw [List.replicate_succ, List.flatten_cons, List.append_assoc, Nat.succ_mul]
    omega

theorem keepsPromise_list {element : Descriptor} {size : SizePolicy String}
    (hslots : size.slots? ≠ some 0) (helement : element.KeepsPromise) :
    KeepsPromise ⟨.list element size, byteOrder, hasFixedSize, minSize⟩ := by
  have hle := size.only?_le_slots?
  constructor
  · intro hends pending more
    obtain ⟨hsome, hends⟩ : size.slots?.isSome ∧ element.endsContainer := by
      simpa [endsContainer, DescriptorKind.endsContainer] using hends
    obtain ⟨slots, hsome⟩ := Option.isSome_iff_exists.1 hsome
    obtain ⟨count, rfl⟩ := Nat.exists_eq_succ_of_ne_zero fun hzero ↦ hslots (hzero ▸ hsome)
    change size.only?.getD 0 * element.fullSize + _ ≤
      occupied pending ((List.replicate (size.slots?.getD 0) element.leastRooms).flatten ++ more)
    rw [hsome, Option.getD_some] at hle ⊢
    have hfirst := helement.1 hends pending
      ((List.replicate count element.leastRooms).flatten ++ more)
    have hmore := mul_fullSize_le helement hends count more
    have hmul := Nat.mul_le_mul_right element.fullSize hle
    rw [List.replicate_succ, List.flatten_cons, List.append_assoc]
    rw [Nat.succ_mul] at hmul
    omega
  · intro hends
    change size.only?.getD 0 * element.fullSize = 0
    cases hsome : size.slots? with
    | none =>
      rw [hsome, Option.getD_none, Nat.le_zero] at hle
      rw [hle, Nat.zero_mul]
    | some slots =>
      have hopen : element.endsContainer = false := by
        simpa [endsContainer, DescriptorKind.endsContainer, hsome] using hends
      rw [helement.2 hopen, Nat.mul_zero]

theorem keepsPromise {descriptor : Descriptor} (hcoherent : descriptor.Everywhere Coherent)
    (hcodec : descriptor.Everywhere fun inner ↦ inner.isCodec = false)
    (hfields : descriptor.Everywhere fun inner ↦ FieldDescriptor.Uninterrupted inner.fields) :
    descriptor.KeepsPromise := by
  induction descriptor using Descriptor.induction with
  | step descriptor ihelement ihfields =>
    obtain ⟨kind, byteOrder, hasFixedSize, minSize⟩ := descriptor
    cases kind with
    | scalar kind | boolean repr | enum repr type =>
      refine ⟨fun _ pending more ↦ ?_, nofun⟩
      change _ ≤ occupied pending (Room.bytes _ ++ more)
      rw [occupied_bytes]
      exact Nat.le_refl _
    | bits content repr width container =>
      refine ⟨fun hends pending more ↦ ?_, fun _ ↦ rfl⟩
      obtain rfl : width = 0 := of_decide_eq_true hends
      change 0 + _ ≤ occupied pending (.align :: more)
      rw [occupied_align, Nat.zero_add]
    | text encoding size =>
      refine ⟨fun _ pending more ↦ ?_, nofun⟩
      have hle : (size.policy?.bind SizePolicy.only?).getD 0 ≤ size.leastCount := by
        cases size with
        | nullTerminated => exact Nat.zero_le _
        | sized policy => exact policy.only?_le_slots?
      change (size.policy?.bind SizePolicy.only?).getD 0 + _ ≤
        occupied pending (Room.bytes size.leastCount ++ more)
      rw [occupied_bytes]
      omega
    | list element size =>
      exact keepsPromise_list hcoherent.here.2 (ihelement element rfl
        (hcoherent.of_element rfl) (hcodec.of_element rfl) (hfields.of_element rfl))
    | record name fields =>
      refine ⟨fun _ pending more ↦ ?_, nofun⟩
      obtain ⟨-, last, hfollows, -⟩ := hcoherent.here
      change (DescriptorKind.record name fields).fullSize + _ ≤
        occupied pending (.align :: (FieldDescriptor.leastRoomsAll fields ++ [.align]) ++ more)
      rw [List.cons_append, occupied_align, List.append_assoc, List.singleton_append]
      have hsum := hfollows.sum_fullSize_le
        (fun field hmem _ ↦ ihfields field hmem (hcoherent.of_field hmem) (hcodec.of_field hmem)
          (hfields.of_field hmem))
        (fun before field after hsplit hpassive ↦
          (hfields.here before field after hsplit hpassive).imp_left fun hbefore ↦ ⟨rfl, hbefore⟩)
        more
      rw [hfollows.fullSize_record]
      change _ ≤ 0 + occupied none _ at hsum
      omega
    | custom codec context => cases hcodec.here

/-- No more is counted than is needed where no list that may be empty comes between bit fields. -/
theorem fullSize_le_leastSize {descriptor : Descriptor} (hcoherent : descriptor.Everywhere Coherent)
    (hcodec : descriptor.Everywhere fun inner ↦ inner.isCodec = false)
    (hfields : descriptor.Everywhere fun inner ↦ FieldDescriptor.Uninterrupted inner.fields) :
    descriptor.fullSize ≤ descriptor.leastSize := by
  obtain ⟨hends, hopen⟩ := keepsPromise hcoherent hcodec hfields
  cases h : descriptor.endsContainer with
  | true =>
    have hle := hends h none []
    rwa [occupied_nil, List.append_nil] at hle
  | false =>
    rw [hopen h]
    exact Nat.zero_le _

/-- A machine word promises no more than the number. -/
theorem minSize_le_leastSize {descriptor : Descriptor} (hcoherent : descriptor.Everywhere Coherent)
    (hcodec : descriptor.Everywhere fun inner ↦ inner.isCodec = false)
    (hfields : descriptor.Everywhere fun inner ↦ FieldDescriptor.Uninterrupted inner.fields) :
    descriptor.minSize.toNat ≤ descriptor.leastSize := by
  rw [minSize_eq_ofNat_fullSize hcoherent, UInt64.toNat_ofNat']
  exact (Nat.mod_le ..).trans (fullSize_le_leastSize hcoherent hcodec hfields)

end Descriptor

end WireFormat
