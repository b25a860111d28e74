import WireFormat.Proofs.Conflict.Schema
import WireFormat.Proofs.Format.Conformance

/-!
# Moves without a clash

The moves of a value can be made if no bit fields clash.  Moves are taken apart as actions are for
conflicts: some moves pass from containers as described before to containers as described after.

* `Passes` — the moves that can be made, by what is left of the containers around them;
* `Descriptor.passes` — the moves of a value pass if nothing clashes;
* `Schema.exists_toBytes_of_conforms` — so a value that conforms can be written.
-/

namespace WireFormat

/-! ## Moves -/

/-- What is left of a container that is being filled. -/
def Container.outline (container : Container) : Outline :=
  ⟨container.width, 8 * container.width - container.bits, container.swap⟩

/-- Wherever what is pending is as described before, the moves can be made, and what is pending then
is as described after. -/
def Passes (P : Outline → Prop) (moves : List Move) (Q : Outline → Prop) : Prop :=
  ∀ pending : Option Container, (∀ active ∈ pending, P active.outline) →
    ∃ last, Goes pending moves last ∧ ∀ active ∈ last, Q active.outline

namespace Passes

variable {P Q R : Outline → Prop} {moves more : List Move}

theorem nil : Passes P [] P := fun pending h ↦ ⟨pending, .done pending, h⟩

theorem append (h : Passes P moves Q) (hmore : Passes Q more R) : Passes P (moves ++ more) R := by
  intro pending hpending
  obtain ⟨middle, hgoes, hmiddle⟩ := h pending hpending
  obtain ⟨last, hrest, hlast⟩ := hmore middle hmiddle
  exact ⟨last, hgoes.trans hrest, hlast⟩

theorem imp (h : Passes P moves Q) (hQ : ∀ outline, Q outline → R outline) : Passes P moves R := by
  intro pending hpending
  obtain ⟨last, hgoes, hlast⟩ := h pending hpending
  exact ⟨last, hgoes, fun active hactive ↦ hQ _ (hlast active hactive)⟩

theorem of_imp (h : Passes P moves Q) (hP : ∀ outline, R outline → P outline) : Passes R moves Q :=
  fun pending hpending ↦ h pending fun active hactive ↦ hP _ (hpending active hactive)

theorem bytes (own : List UInt8) : Passes P [.bytes own] Idle :=
  fun _ _ ↦ ⟨none, .bytes (.done none), nofun⟩

/-- Bits go into a container if they agree with the one that is pending. -/
theorem bits {value container width : Nat} {swap : Bool}
    (hcheck : Container.check container width = .ok ()) (hvalue : value < 2 ^ width)
    (hagree : ∀ outline, P outline → outline.width = container → width ≤ outline.left →
      outline.swap = swap) :
    Passes P [.bits value container width swap] (Outline.After container width swap) := by
  have hle := (Container.check_eq_ok_iff.1 hcheck).2.2
  intro pending hpending
  by_cases hroom : ∃ active ∈ pending, active.hasRoom container width = true
  · obtain ⟨active, rfl, hroom⟩ := hroom
    obtain ⟨rfl, hbits⟩ := Container.hasRoom_iff.1 hroom
    have hswap : active.swap = swap :=
      hagree active.outline (hpending active rfl) rfl (by dsimp only [Container.outline]; omega)
    refine ⟨_, .add hcheck hvalue hroom hswap (.done _), ?_⟩
    rintro _ ⟨⟩
    refine ⟨rfl, hswap, ?_⟩
    change 8 * active.width - (active.bits + width) + width ≤ 8 * active.width
    omega
  · refine ⟨_, .start hcheck hvalue (fun active hactive ↦ ?_) (.done _), ?_⟩
    · exact Bool.eq_false_iff.2 fun h ↦ hroom ⟨active, hactive, h⟩
    · rintro _ ⟨⟩
      refine ⟨rfl, rfl, ?_⟩
      change 8 * container - width + width ≤ 8 * container
      omega

/-- Of moves that leave nothing pending as many may follow each other as there are, but one. -/
theorem flatten {parts : List (List Move)} (hne : parts ≠ [])
    (h : ∀ part ∈ parts, ∀ R, Passes R part Idle) : Passes P parts.flatten Idle := by
  induction parts generalizing P with
  | nil => exact (hne rfl).elim
  | cons part parts ih =>
    obtain ⟨hpart, hparts⟩ := List.forall_mem_cons.1 h
    rw [List.flatten_cons]
    cases parts with
    | nil => exact (hpart P).append nil
    | cons => exact (hpart P).append (ih (List.cons_ne_nil _ _) hparts)

end Passes

/-! ## Texts and lists -/

theorem TextSize.passes_of_writes {κ : Type} {encoding : Encoding} {bytes : List UInt8}
    {size : TextSize κ} {moves : List Move} {P : Outline → Prop}
    (h : size.Writes encoding bytes moves) : Passes P moves Idle := by
  cases h <;> exact (Passes.bytes _).append (.bytes _)

/-! ## Fields -/

section Fields

variable {P : Outline → Prop} {moves : List Move} {descriptor : Descriptor}

/-- The moves of a bit field pass if it agrees with what is pending. -/
theorem Descriptor.passes_bits {content : BitContent} {repr : IntegerKind}
    {width container bits : Nat} {byteOrder : ByteOrder} {hasFixedSize : Bool} {minSize : UInt64}
    (hagrees : Agrees False P
      ⟨.bits content repr width container, byteOrder, hasFixedSize, minSize⟩)
    (hwidth : width ≠ 0) (hlt : bits < 2 ^ width) :
    Passes P [.bits bits container width (byteOrder.reverses container)]
      (After ⟨.bits content repr width container, byteOrder, hasFixedSize, minSize⟩ P) := by
  obtain ⟨hcheck, hagree⟩ := hagrees container width _ ⟨⟨content, repr, rfl⟩, hwidth, rfl⟩
  change Passes P _ (if width = 0 then Idle else _)
  rw [if_neg hwidth]
  exact .bits hcheck hlt fun outline houtline hcontainer hle ↦
    (hagree outline houtline hcontainer hle).resolve_right id

theorem Descriptor.passes_of_writesLength {length : Nat} (hcoherent : descriptor.Coherent)
    (hagrees : descriptor.Agrees False P)
    (h : descriptor.kind.WritesLength descriptor.byteOrder length moves) :
    Passes P moves (descriptor.After P) := by
  obtain ⟨kind, byteOrder, hasFixedSize, minSize⟩ := descriptor
  cases kind with
  | scalar kind =>
    obtain ⟨raw, -, rfl⟩ := h
    exact .bytes _
  | bits content repr width container =>
    cases content with
    | integer =>
      obtain ⟨bits, hbits, rfl⟩ := h
      obtain ⟨hwidth, hlt, -⟩ :=
        Flavor.bitsOf_eq_ok (Nat.le_trans hcoherent.2 repr.bits_le) hbits
      exact passes_bits hagrees hwidth hlt
    | _ => cases h
  | _ => cases h

namespace FieldDescriptor

variable {demands : List Demand} {members : Members} {fields done rest : List FieldDescriptor}
  {field : FieldDescriptor} {last : Runs}

theorem passes_padding (hserialize : field.serialize) :
    Passes (field.descriptor.After (Pending done)) (padding field.padAfter)
      (Pending (done ++ [field])) := by
  cases hpad : field.padAfter with
  | true => exact (Passes.bytes []).imp fun _ ↦ False.elim
  | false => exact Passes.nil.imp fun outline hleft ↦ pending_of_after hserialize hpad hleft

/-- The moves of the fields of a record pass if none of the fields clash. -/
theorem passes_of_writesAll (hsplit : fields = done ++ rest) (hruns : Runs.Follows {} fields last)
    (hclash : ¬ Clashes fields)
    (hrest : ∀ field ∈ rest, field.serialize → ∀ P own, field.descriptor.Agrees False P →
      WritesOwn demands members field.name field.descriptor field.lengthOf
        field.descriptor.Writes own → Passes P own (field.descriptor.After P))
    (h : WritesAll demands members rest moves) : Passes (Pending done) moves (Pending fields) := by
  induction rest generalizing done moves with
  | nil =>
    obtain rfl : moves = [] := h
    rw [hsplit, List.append_nil]
    exact .nil
  | cons field rest ih =>
    obtain ⟨hfield, hrest⟩ := List.forall_mem_cons.1 hrest
    have hnext : fields = (done ++ [field]) ++ rest := by simp [hsplit]
    cases hserialize : field.serialize with
    | false =>
      rw [writesAll_cons_of_not_serialize hserialize] at h
      exact (ih hnext hrest h).of_imp fun outline hleft ↦
        hleft.append fun hother ↦ by simp [hserialize] at hother
    | true =>
      obtain ⟨own, more, hown, hmore, rfl⟩ := (writesAll_cons_of_serialize hserialize).1 h
      have hagrees : field.descriptor.Agrees False (Pending done) :=
        (agrees (hsplit ▸ hruns) hserialize).imp (hsplit ▸ hclash)
      exact ((hfield hserialize _ own hagrees hown).append (passes_padding hserialize)).append
        (ih hnext hrest hmore)

end FieldDescriptor

end Fields

/-! ## Descriptors -/

namespace Descriptor

/-- The moves of a list pass if those of each element do.  Only a list without slots can have none
at all. -/
theorem passes_of_forall₂ {element : Descriptor} {size : SizePolicy String}
    {items filled : List Value} {parts : List (List Move)} {P : Outline → Prop}
    (hslots : size.slots? ≠ some 0) (hfilled : size.filled? element.default? items = some filled)
    (hparts : List.Forall₂ element.Writes filled parts)
    (hpart : ∀ part ∈ parts, ∀ R, Passes R part Idle) :
    Passes P parts.flatten (if size.slots?.isSome then Idle else P) := by
  cases hparts with
  | nil =>
    cases hsize : size.slots? with
    | none => exact .nil
    | some slots =>
      have hlength := (SizePolicy.filled?_eq_some hsize hfilled).2.2
      exact (hslots (hsize.trans (congrArg some hlength.symm))).elim
  | cons hfirst hrest =>
    exact (Passes.flatten (List.cons_ne_nil _ _) hpart).imp fun outline ↦ False.elim

/-- The moves of a value pass if nothing clashes. -/
theorem passes {descriptor : Descriptor} {P : Outline → Prop} {value : Value}
    {moves : List Move} (hcoherent : descriptor.Everywhere Coherent)
    (hwhole : descriptor.Everywhere HoldsWhole) (hsettled : descriptor.Settled)
    (hclash : ¬ descriptor.Clashes) (hagrees : descriptor.Agrees False P)
    (h : descriptor.Writes value moves) : Passes P moves (descriptor.After P) := by
  induction descriptor using Descriptor.induction generalizing P value moves with
  | step descriptor ihelement ihfields =>
    have hends : ∀ element ∈ descriptor.element?, element.endsContainer := fun element hmem ↦
      endsContainer_of_mem_element? hwhole hsettled hmem
    obtain ⟨kind, byteOrder, hasFixedSize, minSize⟩ := descriptor
    cases kind with
    | scalar kind | boolean repr | enum repr type =>
      obtain ⟨raw, -, rfl⟩ := h
      exact .bytes _
    | bits content repr width container =>
      change if width = 0 then _ else _ at h
      split at h
      · next hwidth =>
        subst hwidth h
        exact .bytes []
      · next hwidth =>
        obtain ⟨bits, hbits, rfl⟩ := h
        exact passes_bits hagrees hwidth (Flavor.decodeBits_encodeBits hcoherent.here.2 hbits).2.1
    | text encoding size =>
      obtain ⟨text, bytes, -, -, hwrites⟩ := h
      exact TextSize.passes_of_writes hwrites
    | list element size =>
      obtain ⟨items, filled, parts, -, hfilled, hparts, rfl⟩ := h
      have hbits : element.bitWidth? = none := hwhole.here element rfl
      have hpart : ∀ part ∈ parts, ∀ R, Passes R part Idle := by
        intro part hmem R
        obtain ⟨item, hwrites⟩ := exists_forall₂_iff.1 ⟨_, hparts.flip⟩ part hmem
        have hpasses := ihelement element rfl (hcoherent.of_element rfl) (hwhole.of_element rfl)
          (settled_list_iff.1 hsettled).1 (fun hinner ↦ hclash (.element rfl hinner))
          (agrees_of_bitWidth?_eq_none hbits (P := R)) hwrites
        rwa [after_of_bitWidth?_eq_none hbits, if_pos (hends element rfl)] at hpasses
      rw [after_list (hends element rfl)]
      exact passes_of_forall₂ hcoherent.here.2 hfilled hparts hpart
    | record name fields =>
      obtain ⟨members, inner, -, hinner, rfl⟩ := h
      obtain ⟨-, last, hruns, -⟩ := hcoherent.here
      have hall : Passes (FieldDescriptor.Pending []) inner (FieldDescriptor.Pending fields) := by
        refine FieldDescriptor.passes_of_writesAll rfl hruns (fun hfields ↦ hclash (.here hfields))
          (fun field hmem hserialize P own hagrees hown ↦ ?_) hinner
        cases hkey : field.lengthOf with
        | none =>
          rw [hkey] at hown
          obtain ⟨value, -, hwrites⟩ := hown
          exact ihfields field hmem (hcoherent.of_field hmem) (hwhole.of_field hmem)
            ((settled_record_iff.1 hsettled).1 field hmem hserialize)
            (fun hinner ↦ hclash (.field hmem hserialize hinner)) hagrees hwrites
        | some key =>
          rw [hkey] at hown
          obtain ⟨feed, length, -, -, hwrites⟩ := hown
          exact passes_of_writesLength (hcoherent.of_field hmem).here hagrees hwrites
      exact (Passes.bytes []).append ((hall.of_imp fun _ ↦ False.elim).append (.bytes []))
    | custom codec context => exact h.elim

end Descriptor

/-! ## Schemas -/

/-- Without clashes, a value that conforms can be written. -/
theorem Schema.exists_toBytes_of_conforms {layout : Layout} {schema : Schema} {value : Value}
    (h : ofLayout layout = .ok schema) (hclash : ¬ schema.descriptor.Clashes)
    (hconforms : schema.descriptor.Conforms value) : ∃ bytes, schema.toBytes value = .ok bytes := by
  obtain ⟨hdescribe, hplan⟩ := ofLayout_eq_ok h
  obtain ⟨⟨hsettled, -⟩, hroot, -, -⟩ := Plan.ofDescriptor_eq_ok_iff.1 hplan
  have hcoherent := Layout.describe_coherent hdescribe
  obtain ⟨moves, hwrites⟩ := (Descriptor.exists_writes_iff hcoherent).2 hconforms
  have hagrees : schema.descriptor.Agrees False Idle :=
    Descriptor.agrees_of_bitWidth?_eq_none (Descriptor.bitWidth?_eq_none_of_record hroot)
  have hpasses := (Descriptor.passes hcoherent (Layout.everywhere_holdsWhole hdescribe) hsettled
    hclash hagrees hwrites).append (.bytes [])
  obtain ⟨last, hgoes, -⟩ := hpasses none nofun
  obtain ⟨word, bytes, hemits⟩ := exists_emits_iff.2 ⟨last, hgoes⟩
  exact ⟨bytes, toBytes_of_emits (Descriptor.isPerformed hcoherent) hroot hwrites hemits⟩

end WireFormat
