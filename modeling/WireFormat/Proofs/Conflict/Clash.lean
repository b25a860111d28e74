import WireFormat.Proofs.Conflict.Calm
import WireFormat.Proofs.Size.Promise

/-!
# Clashes between bit fields

The bit fields of a run agree about their containers, since that has been checked.  A run ends with
every other field, but the container at hand may not end with it: the next bit field can find what
the run before has left.  If the two fields disagree about the order of its bytes, they clash.

* `FieldDescriptor.Clashes`, `Descriptor.Clashes` — two bit fields of a record clash;
* `FieldDescriptor.Pending` — what is left of a container after some fields of a record;
* `FieldDescriptor.agrees` — a bit field agrees with what is left before it, or clashes.
-/

namespace WireFormat

/-! ## Definitions -/

/-- A bit field with some bits of a container in an order of bytes. -/
structure Descriptor.Packs (descriptor : Descriptor) (container width : Nat) (swap : Bool) :
    Prop where
  kind : ∃ content repr, descriptor.kind = .bits content repr width container
  width : width ≠ 0
  swap : descriptor.byteOrder.reverses container = swap

/-- What is left of a container after something, with what was left before. -/
def Descriptor.After (descriptor : Descriptor) (P : Outline → Prop) : Outline → Prop :=
  match descriptor.kind with
  | .bits _ _ width container =>
    if width = 0 then Idle
    else Outline.After container width (descriptor.byteOrder.reverses container)
  | _ => if descriptor.endsContainer then Idle else P

/-- A bit field fits its container, and agrees with what is left of one before, or clashes. -/
def Descriptor.Agrees (clash : Prop) (P : Outline → Prop) (descriptor : Descriptor) : Prop :=
  ∀ container width swap, descriptor.Packs container width swap →
    Container.check container width = .ok () ∧ ∀ outline, P outline →
      outline.width = container → width ≤ outline.left → outline.swap = swap ∨ clash

namespace FieldDescriptor

/-- A bit field has its bits in a container that does not end with every value of the fields after
it. -/
structure Outlasts (first : FieldDescriptor) (between : List FieldDescriptor)
    (container width : Nat) (swap : Bool) : Prop where
  serialize : first.serialize
  packs : first.descriptor.Packs container width swap
  padAfter : first.padAfter = false
  passive : ∀ field ∈ between, field.serialize → field.isPassive

/-- Two bit fields of a record have room in one container and disagree about the order of its bytes.
Fields are between them, none of which ends the container with every value. -/
inductive Clashes (fields : List FieldDescriptor) : Prop where
  | intro {before between after : List FieldDescriptor} {first second : FieldDescriptor}
      {container width more : Nat} {swap : Bool}
      (split : fields = before ++ first :: (between ++ second :: after))
      (outlasts : first.Outlasts between container width swap)
      (apart : ∃ field ∈ between, field.isPassive) (serialize : second.serialize)
      (packs : second.descriptor.Packs container more !swap) (room : width + more ≤ 8 * container)

/-- What a bit field among those before may have left of its container. -/
def Pending (done : List FieldDescriptor) (outline : Outline) : Prop :=
  ∃ before first between width, done = before ++ first :: between ∧
    first.Outlasts between outline.width width outline.swap ∧
    outline.left + width ≤ 8 * outline.width

end FieldDescriptor

/-- Two bit fields of a record on the wire clash. -/
inductive Descriptor.Clashes : Descriptor → Prop where
  | here {descriptor : Descriptor} (fields : FieldDescriptor.Clashes descriptor.fields) :
      Clashes descriptor
  | element {descriptor element : Descriptor} (mem : element ∈ descriptor.element?)
      (inner : element.Clashes) : Clashes descriptor
  | field {descriptor : Descriptor} {field : FieldDescriptor} (mem : field ∈ descriptor.fields)
      (serialize : field.serialize) (inner : field.descriptor.Clashes) : Clashes descriptor

theorem Descriptor.bitWidth?_eq_none_of_record {descriptor : Descriptor}
    {chain : List Enclosure} {plan : RecordPlan}
    (h : descriptor.operation chain = .record plan) : descriptor.bitWidth? = none := by
  obtain ⟨kind, byteOrder, hasFixedSize, minSize⟩ := descriptor
  cases kind with
  | bits => cases h
  | _ => rfl

theorem Descriptor.not_packs_of_bitWidth?_eq_none {descriptor : Descriptor}
    (h : descriptor.bitWidth? = none) {container width : Nat} {swap : Bool} :
    ¬ descriptor.Packs container width swap := by
  rintro ⟨⟨content, repr, hkind⟩, -, -⟩
  rw [bitWidth?, hkind] at h
  cases h

theorem Descriptor.after_of_bitWidth?_eq_none {descriptor : Descriptor} {P : Outline → Prop}
    (h : descriptor.bitWidth? = none) :
    descriptor.After P = if descriptor.endsContainer then Idle else P := by
  rw [After]
  cases hkind : descriptor.kind with
  | bits content repr width container =>
    rw [bitWidth?, hkind] at h
    cases h
  | _ => rfl

/-! ## Runs -/

namespace Runs

variable {runs middle after last : Runs} {before between rest : List FieldDescriptor}
  {field : FieldDescriptor} {container width : Nat} {swap : Bool}

/-- The containers of the run that has not ended can have their width. -/
def Sound (runs : Runs) : Prop := ∀ run ∈ runs.active, 1 ≤ run.width ∧ run.width ≤ 8

theorem sound_close (runs : Runs) : runs.close.Sound := nofun

theorem Sound.enter {order : ByteOrder} (h : runs.Sound) (repr : IntegerKind) :
    1 ≤ (runs.enter repr.width order).1.width ∧ (runs.enter repr.width order).1.width ≤ 8 := by
  rw [Runs.enter]
  split
  · next run hrun => exact h run hrun
  · exact repr.width_bounds

theorem Sound.add {bits : Nat} {order : ByteOrder} {repr : IntegerKind} (h : runs.Sound)
    (hadd : runs.add repr.width bits order = .ok (container, after)) :
    1 ≤ container ∧ container ≤ 8 ∧ after.Sound := by
  obtain ⟨-, rfl, -, taken, hafter⟩ := add_eq_ok hadd
  obtain ⟨hleast, hmost⟩ := h.enter repr
  refine ⟨hleast, hmost, fun run hrun ↦ ?_⟩
  rw [hafter] at hrun
  cases hrun
  exact ⟨hleast, hmost⟩

namespace Follows

theorem exists_of_append (h : Follows runs (before ++ rest) last) :
    ∃ middle, Follows runs before middle ∧ Follows middle rest last := by
  induction before generalizing runs with
  | nil => exact ⟨runs, .nil runs, h⟩
  | cons field before ih =>
    cases h with
    | skip skipped follows =>
      obtain ⟨middle, hbefore, hrest⟩ := ih follows
      exact ⟨middle, .skip skipped hbefore, hrest⟩
    | field serialize track follows =>
      obtain ⟨middle, hbefore, hrest⟩ := ih follows
      exact ⟨middle, .field serialize track hbefore, hrest⟩

theorem sound (h : Follows runs before last) (hruns : runs.Sound) : last.Sound := by
  induction h with
  | nil => exact hruns
  | skip _ _ ih => exact ih hruns
  | @field runs after last field rest _ track _ ih =>
    refine ih ?_
    split
    · exact sound_close after
    · rcases RecordAnalysis.track_cases track with ⟨-, -, rfl⟩ | ⟨_, _, _, _, _, _, _, hadd, _⟩
      · exact sound_close runs
      · exact (hruns.add hadd).2.2

/-- Fields that are not on the wire do not change the runs. -/
theorem of_not_serialize (h : Follows runs (between ++ rest) last)
    (hskipped : ∀ field ∈ between, field.serialize = false) : Follows runs rest last := by
  induction between with
  | nil => exact h
  | cons field between ih =>
    obtain ⟨hfield, hbetween⟩ := List.forall_mem_cons.1 hskipped
    cases h with
    | skip _ follows => exact ih follows hbetween
    | field serialize =>
      rw [hfield] at serialize
      cases serialize

/-- A bit field has been added to the runs. -/
theorem exists_add (h : Follows runs (field :: rest) last) (hserialize : field.serialize)
    (hpacks : field.descriptor.Packs container width swap) : ∃ (repr : IntegerKind) (after : Runs),
      runs.add repr.width width field.descriptor.byteOrder = .ok (container, after) ∧
      Follows (if field.padAfter then after.close else after) rest last := by
  obtain ⟨⟨content, repr, hkind⟩, hwidth, -⟩ := hpacks
  cases h with
  | skip skipped =>
    rw [skipped] at hserialize
    cases hserialize
  | @field _ after _ _ _ _ track follows =>
    rcases RecordAnalysis.track_cases track with ⟨hbits, -, -⟩ |
      ⟨_, _, _, _, own, hkind', -, hadd, hcontainer⟩
    · exact (hwidth (hbits width (by simp [Descriptor.bitWidth?, hkind]))).elim
    · rw [hkind] at hkind'
      obtain ⟨rfl, rfl, rfl, rfl⟩ := DescriptorKind.bits.inj hkind'
      have hsame := congrArg Descriptor.kind hcontainer
      rw [Descriptor.withContainer, hkind] at hsame
      obtain ⟨-, -, -, rfl⟩ := DescriptorKind.bits.inj hsame
      exact ⟨_, after, hadd, follows⟩

/-- A bit field of a record fits its container. -/
theorem check (h : Follows {} (before ++ field :: rest) last) (hserialize : field.serialize)
    (hpacks : field.descriptor.Packs container width swap) :
    Container.check container width = .ok () := by
  obtain ⟨middle, hbefore, hrest⟩ := h.exists_of_append
  obtain ⟨repr, after, hadd, -⟩ := hrest.exists_add hserialize hpacks
  obtain ⟨hleast, hmost, -⟩ := (hbefore.sound nofun).add hadd
  exact Container.check_eq_ok_iff.2 ⟨hleast, hmost, (add_eq_ok hadd).1⟩

/-- A bit field agrees with the one before it, if nothing on the wire is between them. -/
theorem agree {first : FieldDescriptor} {container' width' : Nat} {swap' : Bool}
    (h : Follows runs (first :: (between ++ field :: rest)) last)
    (hfirst : first.Outlasts between container width swap) (hserialize : field.serialize)
    (hpacks : field.descriptor.Packs container' width' swap')
    (hbetween : ∀ field ∈ between, field.serialize = false) : swap = swap' := by
  obtain ⟨repr, after, hadd, hrest⟩ := h.exists_add hfirst.serialize hfirst.packs
  rw [hfirst.padAfter, if_neg (by simp)] at hrest
  obtain ⟨-, -, -, taken, hactive⟩ := add_eq_ok hadd
  obtain ⟨repr', after', hadd', -⟩ :=
    (hrest.of_not_serialize hbetween).exists_add hserialize hpacks
  obtain ⟨-, hwidth, hswap, -⟩ := add_eq_ok hadd'
  -- The run has not ended, so it is the one that the field is added to.
  have henter (order : ByteOrder) : (after.enter repr'.width order).1 =
      ⟨container, taken, first.descriptor.byteOrder.reverses container⟩ := by
    rw [enter, hactive]
  rw [henter] at hwidth hswap
  rw [← hfirst.packs.swap, ← hpacks.swap]
  exact hswap

end Follows

end Runs

/-! ## Fields -/

namespace FieldDescriptor

variable {done rest : List FieldDescriptor} {field : FieldDescriptor} {outline : Outline}

theorem Outlasts.append {first : FieldDescriptor} {between : List FieldDescriptor}
    {container width : Nat} {swap : Bool} (h : first.Outlasts between container width swap)
    (hpassive : field.serialize → field.isPassive) :
    first.Outlasts (between ++ [field]) container width swap := by
  refine ⟨h.serialize, h.packs, h.padAfter, ?_⟩
  simpa [or_imp, forall_and] using ⟨h.passive, hpassive⟩

/-- What was left is left after a field that may not end the container. -/
theorem Pending.append (h : Pending done outline) (hpassive : field.serialize → field.isPassive) :
    Pending (done ++ [field]) outline := by
  obtain ⟨before, first, between, width, rfl, houtlasts, hroom⟩ := h
  exact ⟨before, first, between ++ [field], width, by simp, houtlasts.append hpassive, hroom⟩

/-- What is left after one more field without padding. -/
theorem pending_of_after (hserialize : field.serialize) (hpad : field.padAfter = false)
    (h : field.descriptor.After (Pending done) outline) : Pending (done ++ [field]) outline := by
  cases hbits : field.descriptor.bitWidth? with
  | none =>
    rw [Descriptor.after_of_bitWidth?_eq_none hbits] at h
    split at h
    · cases h
    · next hends =>
      exact h.append fun _ ↦ by simp [isPassive, packs, hserialize, hbits, hpad, hends]
  | some width =>
    obtain ⟨name, order, ⟨kind, byteOrder, hasFixedSize, minSize⟩, serialize, lengthOf, padAfter⟩ :=
      field
    cases kind with
    | bits content repr width container =>
      change (if width = 0 then Idle else _) outline at h
      split at h
      · cases h
      · next hwidth =>
        obtain ⟨rfl, hswap, hroom⟩ := h
        exact ⟨done, _, [], width, rfl, ⟨hserialize, ⟨⟨_, _, rfl⟩, hwidth, hswap.symm⟩, hpad,
          by simp⟩, hroom⟩
    | _ => cases hbits

/-- A bit field of a record fits its container, and agrees with what is left of one before it, or
clashes with the field that has left it. -/
theorem agrees {last : Runs} (h : Runs.Follows {} (done ++ field :: rest) last)
    (hserialize : field.serialize) :
    field.descriptor.Agrees (Clashes (done ++ field :: rest)) (Pending done) := by
  refine fun container width swap hpacks ↦ ⟨h.check hserialize hpacks, ?_⟩
  rintro outline ⟨before, first, between, width', rfl, houtlasts, hroom⟩ rfl hle
  rw [or_iff_not_imp_left]
  intro hswap
  have hsplit : before ++ first :: between ++ field :: rest =
      before ++ first :: (between ++ field :: rest) := by simp
  rw [hsplit] at h ⊢
  by_cases hapart : ∃ field ∈ between, field.isPassive
  · obtain rfl : swap = !outline.swap := Bool.eq_not_of_ne (Ne.symm hswap)
    exact .intro rfl houtlasts hapart hserialize hpacks (by omega)
  · -- With nothing between them, both fields are in one run, which has been checked.
    obtain ⟨middle, -, hrest⟩ := h.exists_of_append
    refine (hswap (hrest.agree houtlasts hserialize hpacks fun other hmem ↦ ?_)).elim
    exact Bool.eq_false_iff.2 fun hother ↦
      hapart ⟨other, hmem, houtlasts.passive other hmem hother⟩

end FieldDescriptor

end WireFormat
