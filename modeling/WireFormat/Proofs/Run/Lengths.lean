import WireFormat.Proofs.Format.Decode
import WireFormat.Proofs.Format.RoundTrip
import WireFormat.Proofs.Run.Stages
import WireFormat.Proofs.Size.Decode

/-!
# The lengths of a run

A list or text that takes a length finds it in the traversal, since the field that carries it comes
before.  This is kept along a whole run: what is known of a descriptor inside its records is known
of every stage.

* `Traversal.Supplies` — the lengths that have been read in the records around;
* `Stage.Shows` — a stage at a descriptor, with what is known there;
* `Stage.Shows.exists_toInteger?` — whatever carries a length is read as an integer;
* `Stage.Shows.of_entersField`, `Stage.Shows.of_entersElement` — what is known is kept by one step;
* `Schema.exists_shows_of_visits` — and by every run.
-/

namespace WireFormat

variable {traversal after around : Traversal Members} {reader next : Reader}
  {chain : List Enclosure} {read : Int → Prop}

/-! ## Lengths in the records around -/

/-- Of the records around, each has read the lengths of the fields that come before the one at hand.
-/
def Traversal.Supplies (traversal : Traversal Members) (chain : List Enclosure)
    (read : Int → Prop) : Prop :=
  ∀ up enclosure, chain[up]? = some enclosure → ∀ key, ∀ carrier ∈ enclosure.carriers key,
    carrier.order < enclosure.member.order →
      ∃ length, traversal.length? up key = some length ∧ read length

/-- A length that is asked for has been read.  It is turned down only if it is negative. -/
theorem Traversal.Supplies.sourceLength_from {key : String} (h : traversal.Supplies chain read)
    (hlends : Lends key chain) : ∃ length, read length ∧
      traversal.sourceLength (.from chain key) =
        if 0 ≤ length then .ok length.toNat else .error (.invalidLength length) := by
  obtain @⟨inner, outer, enclosure, carrier, own, inside, outside, earlier⟩ := hlends
  have hmem : carrier ∈ enclosure.carriers key := by
    rw [own]
    exact List.mem_cons_self
  obtain ⟨length, hlength, hread⟩ := h inner.length enclosure (by simp) key carrier hmem earlier
  refine ⟨length, hread, ?_⟩
  rw [LengthSource.from_eq (List.ne_nil_of_mem hmem) inside, sourceLength, hlength]

/-- A field that is kept adds the length that it carries to the innermost record. -/
theorem FieldPlan.frames_of_keep {name : String} {lengthOf : Option String} {value : Value}
    {frame : Frame Members} {frames : List (Frame Members)}
    (hframes : traversal.frames = frame :: frames)
    (h : keep traversal name lengthOf value = .ok after) :
    ∃ own, after.frames = own :: frames ∧
      ((lengthOf = none ∧ own.lengths = frame.lengths) ∨
        ∃ key length, lengthOf = some key ∧ value.toInteger? = some length ∧
          own.lengths = (key, length) :: frame.lengths) := by
  obtain ⟨_, steps⟩ := traversal
  obtain rfl := hframes
  cases lengthOf with
  | none =>
    cases h
    exact ⟨_, rfl, .inl ⟨rfl, rfl⟩⟩
  | some key =>
    rw [keep] at h
    split at h
    · next length hlength =>
      cases h
      exact ⟨_, rfl, .inr ⟨key, length, rfl, hlength, rfl⟩⟩
    · cases h

/-- A reader that has gone through some fields of a record is sound if it was so before. -/
theorem FieldDescriptor.sound_of_pass {name : String} {fields before : List FieldDescriptor}
    (hread : ∀ field ∈ before, field.descriptor.IsRead) (hsound : reader.Sound)
    (h : FieldPlan.pass traversal (before.map (FieldDescriptor.plan name fields chain)) reader =
      .ok around next) : next.Sound := by
  induction before generalizing traversal reader with
  | nil =>
    obtain ⟨-, rfl⟩ := run_pure_eq_ok_iff.1 h
    exact hsound
  | cons field before ih =>
    obtain ⟨hfield, hread⟩ := List.forall_mem_cons.1 hread
    rw [List.map_cons, FieldPlan.pass, List.foldlM_cons, run_bind_eq_ok_iff] at h
    obtain ⟨after, middle, hadvance, h⟩ := h
    obtain ⟨⟨rooms, hpasses, -⟩, -⟩ := FieldDescriptor.takes_of_advance hfield hadvance
    exact ih hread (hpasses.sound hsound) h

/-! ## Fields that carry lengths -/

theorem Flavor.exists_integer_of_decodeBits {own : IntegerKind} {width bits : Nat} {value : Value}
    (h : native.decodeBits (.integer own) width bits = .ok value) :
    ∃ pattern, value = .integer own pattern := by
  rw [decodeBits] at h
  generalize (if isSigned native (.integer own) then signExtend bits width else (bits : Int)) =
    number at h
  by_cases hfits : own.Fits number
  · rw [Value.ofInteger?, if_pos hfits] at h
    cases h
    exact ⟨_, rfl⟩
  · rw [Value.ofInteger?, if_neg hfits] at h
    cases h

/-- What can carry a length is read as an integer. -/
theorem Descriptor.exists_toInteger?_of_decode {descriptor : Descriptor} {value : Value}
    (hcarries : descriptor.kind.carriesLength)
    (h : (descriptor.operation chain).decode traversal reader = .ok value next) :
    ∃ length, value.toInteger? = some length := by
  obtain ⟨kind, byteOrder, hasFixedSize, minSize⟩ := descriptor
  cases kind with
  | scalar kind =>
    cases kind with
    | integer kind =>
      change Operation.decode traversal (.scalar ..) reader = _ at h
      rw [Operation.decode, run_bind_eq_ok_iff] at h
      obtain ⟨raw, _, -, hdata⟩ := h
      obtain ⟨hvalue, -⟩ := ReadM.run_ofData_eq_ok_iff.1 hdata
      cases (Value.ofRaw_integer kind raw).symm.trans hvalue
      exact ⟨_, rfl⟩
    | _ => cases hcarries
  | bits content repr width container =>
    cases content with
    | integer =>
      change Operation.decode traversal (.bits ..) reader = _ at h
      rw [Operation.decode] at h
      split at h
      · obtain ⟨_, _, -, h⟩ := run_bind_eq_ok_iff.1 h
        obtain ⟨rfl, -⟩ := run_pure_eq_ok_iff.1 h
        exact ⟨_, rfl⟩
      · obtain ⟨bits, _, -, hdata⟩ := run_bind_eq_ok_iff.1 h
        obtain ⟨hvalue, -⟩ := ReadM.run_ofData_eq_ok_iff.1 hdata
        obtain ⟨pattern, rfl⟩ := Flavor.exists_integer_of_decodeBits hvalue
        exact ⟨_, rfl⟩
    | _ => cases hcarries
  | _ => cases hcarries

/-- Only a length that is no integer is not kept. -/
theorem FieldPlan.isSome_of_keep_eq_error {name : String} {lengthOf : Option String}
    {value : Value} {fault : DataError} (h : keep around name lengthOf value = .error fault) :
    lengthOf.isSome ∧ value.toInteger? = none := by
  cases lengthOf with
  | none => cases h
  | some key =>
    refine ⟨rfl, ?_⟩
    cases hnumber : value.toInteger? with
    | none => rfl
    | some length =>
      rw [keep, hnumber] at h
      cases h

namespace Stage

variable {stage inner : Stage} {root descriptor : Descriptor}

/-- Once some fields of a record have been read, so have the lengths that they carry. -/
theorem exists_frame_of_pass {plan : RecordPlan} {before rest : List FieldPlan}
    (split : plan.fields = before ++ rest)
    (passed : FieldPlan.pass (traversal.push plan.name []) before { reader with active := none } =
      .ok around next) :
    ∃ frame, around.frames = frame :: traversal.frames ∧
      ∀ field ∈ before, ∀ key, field.lengthOf = some key → ∃ length,
        frame.lengths.lookup key = some length ∧
          ReadsLength ⟨.record plan, traversal, reader⟩ length := by
  induction before using List.reverseRecOn generalizing rest around next with
  | nil =>
    obtain ⟨rfl, -⟩ := run_pure_eq_ok_iff.1 passed
    exact ⟨_, rfl, fun _ hmem ↦ (List.not_mem_nil hmem).elim⟩
  | append_singleton before field ih =>
    rw [FieldPlan.pass_append_singleton, run_bind_eq_ok_iff] at passed
    obtain ⟨earlier, start, hbefore, hfield⟩ := passed
    rw [List.append_assoc, List.singleton_append] at split
    obtain ⟨frame, hframes, hlengths⟩ := ih split hbefore
    obtain ⟨value, middle, hdecode, hkeep, -⟩ := FieldPlan.advance_eq_ok_iff.1 hfield
    have henters : EntersField ⟨.record plan, traversal, reader⟩ field
        ⟨field.operation, earlier.enter field.name, start⟩ := .intro split hbefore
    obtain ⟨own, hown, ⟨hnone, hsame⟩ | ⟨key, length, hkey, hlength, hmore⟩⟩ :=
      FieldPlan.frames_of_keep hframes hkeep
    · refine ⟨own, hown, fun other hmem key hother ↦ ?_⟩
      rw [hsame]
      rcases List.mem_append.1 hmem with hmem | hmem
      · exact hlengths other hmem key hother
      · obtain rfl := List.mem_singleton.1 hmem
        rw [hnone] at hother
        cases hother
    · have hread : ReadsLength ⟨.record plan, traversal, reader⟩ length :=
        .intro henters (by rw [hkey]; rfl) hdecode hlength
      refine ⟨own, hown, fun other hmem asked hother ↦ ?_⟩
      rw [hmore, List.lookup_cons]
      split
      · exact ⟨length, rfl, hread⟩
      · next hne =>
        rcases List.mem_append.1 hmem with hmem | hmem
        · exact hlengths other hmem asked hother
        · obtain rfl := List.mem_singleton.1 hmem
          rw [hkey] at hother
          cases hother
          simp at hne

/-! ## Stages at descriptors -/

/-- The stage is at a descriptor inside another, and the lengths that are asked for there have been
read. -/
structure Shows (root descriptor : Descriptor) (chain : List Enclosure) (read : Int → Prop)
    (stage : Stage) : Prop where
  operation : stage.operation = descriptor.operation chain
  inside : ∀ P, root.Everywhere P → descriptor.Everywhere P
  settled : descriptor.Settled
  lent : descriptor.Lent chain
  supplied : stage.traversal.Supplies chain read
  sound : stage.reader.Sound

namespace Shows

/-- What is known of a list is known of its elements. -/
theorem of_entersElement {position : Nat} (hcoherent : root.Everywhere Descriptor.Coherent)
    (hcodec : root.Everywhere fun inner ↦ inner.isCodec = false)
    (h : stage.Shows root descriptor chain read) (henters : stage.EntersElement position inner) :
    ∃ element ∈ descriptor.element?, inner.Shows root element [] read := by
  obtain ⟨hoperation, hinside, hsettled, -, -, hsound⟩ := h
  obtain @⟨_, size, default?, traversal, reader, next, kept, slots, position, before, hextent, hlt,
    hpassed⟩ := henters
  obtain ⟨kind, byteOrder, hasFixedSize, minSize⟩ := descriptor
  cases kind with
  | list element policy =>
    obtain ⟨rfl, rfl, rfl⟩ := Operation.list.inj hoperation
    obtain ⟨helement, hlent⟩ := Descriptor.settled_list_iff.1 hsettled
    have hread : element.IsRead := Descriptor.isRead ((hinside _ hcoherent).of_element rfl)
      ((hinside _ hcodec).of_element rfl)
    refine ⟨element, rfl, rfl, fun P hP ↦ (hinside P hP).of_element rfl, helement,
      Descriptor.lent_nil hlent, nofun, ?_⟩
    obtain ⟨rooms, hpasses, -⟩ := Operation.takes_of_decodeItems
      (fun _ _ _ _ ↦ hread.takes_of_decodeItem) hpassed
    exact hpasses.sound hsound
  | _ => cases hoperation

/-- What is known of a record is known of its fields, and the lengths that come before them are
known as well. -/
theorem of_entersField {field : FieldPlan} (hcoherent : root.Everywhere Descriptor.Coherent)
    (hcodec : root.Everywhere fun inner ↦ inner.isCodec = false)
    (h : stage.Shows root descriptor chain read) (hread : ∀ length, stage.ReadsLength length →
      read length) (henters : stage.EntersField field inner) :
    ∃ own ∈ descriptor.fields, own.serialize ∧ field.lengthOf = own.lengthOf ∧
      inner.Shows root own.descriptor (descriptor.enclosure own :: chain) read := by
  obtain ⟨hoperation, hinside, hsettled, hlent, hsupplied, -⟩ := h
  obtain @⟨plan, before, rest, _, traversal, around, reader, next, split, hpassed⟩ := henters
  obtain ⟨kind, byteOrder, hasFixedSize, minSize⟩ := descriptor
  cases kind with
  | record name fields =>
    have hown := (hinside _ hcoherent).here.1
    rw [Descriptor.operation_record hown.names] at hoperation
    obtain rfl := Operation.record.inj hoperation
    obtain ⟨done, tail, hsplit, rfl, htail⟩ := List.map_eq_append_iff.1 split
    obtain ⟨own, more, rfl, rfl, rfl⟩ := List.map_eq_cons_iff.1 htail
    have hwire : ∀ other ∈ done ++ own :: more, other ∈ fields ∧ other.serialize := by
      rw [← hsplit]
      exact fun other hmem ↦ List.mem_filter.1 hmem
    obtain ⟨hmem, hserialize⟩ :=
      hwire own (List.mem_append_right done List.mem_cons_self)
    obtain ⟨frame, hframes, hlengths⟩ := exists_frame_of_pass split hpassed
    refine ⟨own, hmem, hserialize, rfl, rfl, fun P hP ↦ (hinside P hP).of_field hmem,
      (Descriptor.settled_record_iff.1 hsettled).1 own hmem hserialize,
      hlent.of_field hmem hserialize, ?_, ?_⟩
    · intro up enclosure hup key carrier hcarrier hearlier
      change ∃ length, (around.frames[up]?.bind _) = some length ∧ read length
      rw [hframes]
      cases up with
      | zero =>
        cases hup
        obtain ⟨hcarrier, hcarries⟩ := List.mem_filter.1 hcarrier
        obtain ⟨hwritten, hkey⟩ := FieldDescriptor.carries_iff.1 hcarries
        -- Fields are in order, so that an earlier one is among those that have been read.
        have hdone : carrier ∈ done := by
          have hsorted := hown.orders.sublist (hsplit ▸ List.filter_sublist)
          have hmem : carrier ∈ done ++ own :: more :=
            hsplit ▸ List.mem_filter.2 ⟨hcarrier, hwritten⟩
          rcases List.mem_append.1 hmem with hdone | hlater
          · exact hdone
          · have hpairs := (List.pairwise_append.1 hsorted).2.1
            rcases List.mem_cons.1 hlater with rfl | hlater
            · exact (Nat.lt_irrefl _ hearlier).elim
            · exact (Nat.lt_asymm hearlier (List.rel_of_pairwise_cons hpairs hlater)).elim
        obtain ⟨length, hlookup, hlength⟩ :=
          hlengths _ (List.mem_map_of_mem hdone) key hkey
        exact ⟨length, hlookup, hread length hlength⟩
      | succ up => exact hsupplied up enclosure hup key carrier hcarrier hearlier
    · have hstart : ({ reader with active := none } : Reader).Sound := by
        rintro _ ⟨⟩
      refine FieldDescriptor.sound_of_pass (fun other hother ↦ ?_) hstart hpassed
      have hother := (hwire other (List.mem_append_left _ hother)).1
      exact Descriptor.isRead ((hinside _ hcoherent).of_field hother)
        ((hinside _ hcodec).of_field hother)
  | _ => cases hoperation

/-- A field that carries a length is read as an integer. -/
theorem exists_toInteger? {field : FieldPlan} {value : Value}
    (hcoherent : root.Everywhere Descriptor.Coherent)
    (hcodec : root.Everywhere fun inner ↦ inner.isCodec = false)
    (h : stage.Shows root descriptor chain read) (hread : ∀ length, stage.ReadsLength length →
      read length) (henters : stage.EntersField field inner) (hlength : field.lengthOf.isSome)
    (hrun : inner.run = .ok value next) : ∃ length, value.toInteger? = some length := by
  obtain ⟨own, hmem, -, hown, hinner⟩ := h.of_entersField hcoherent hcodec hread henters
  rw [hown] at hlength
  rw [run, hinner.operation] at hrun
  exact Descriptor.exists_toInteger?_of_decode
    ((h.inside _ hcoherent).here.carriesLength hmem hlength) hrun

end Shows

end Stage

/-! ## Runs of schemas -/

namespace Schema

variable {layout : Layout} {schema : Schema} {bytes rest : List UInt8} {stage : Stage}

/-- The stage at which the reading of some bytes starts. -/
def start (schema : Schema) (bytes : List UInt8) : Stage :=
  ⟨.record schema.plan.root, {}, { source := bytes }⟩

/-- Something is about to be read while some bytes are, whether they can be read in the end or not.
-/
def Visits (schema : Schema) (bytes : List UInt8) (stage : Stage) : Prop :=
  (schema.start bytes).Leads stage

/-- A field that carries a length has been read while some bytes were, and this is its number. -/
def ReadsLength (schema : Schema) (bytes : List UInt8) (length : Int) : Prop :=
  ∃ stage, schema.Visits bytes stage ∧ stage.ReadsLength length

theorem exists_run_of_deserialize_eq_error {error : Error}
    (h : schema.deserialize bytes = (.error error, rest)) :
    ∃ last, (schema.start bytes).run = .error error last := by
  rw [deserialize] at h
  split at h
  · cases h
  · next failure reader hfailure =>
    cases h
    refine ⟨reader, ?_⟩
    rw [start, Stage.run, Operation.decode]
    exact run_bind_eq_error_iff.2 (.inl hfailure)

/-- At every stage of a run, the lengths that are asked for have been read in that run. -/
theorem exists_shows_of_visits (h : ofLayout layout = .ok schema) (hcodec : ¬ layout.UsesCodec)
    (hvisits : schema.Visits bytes stage) : ∃ descriptor chain,
      stage.Shows schema.descriptor descriptor chain (schema.ReadsLength bytes) := by
  obtain ⟨hdescribe, hplan⟩ := ofLayout_eq_ok h
  obtain ⟨⟨hsettled, hlent⟩, hroot, -, -⟩ := Plan.ofDescriptor_eq_ok_iff.1 hplan
  have hcoherent := Layout.describe_coherent hdescribe
  have hfree := Layout.everywhere_isCodec_eq_false hdescribe hcodec
  induction hvisits with
  | refl =>
    exact ⟨schema.descriptor, [], hroot.symm, fun _ ↦ id, hsettled, Descriptor.lent_nil hlent,
      nofun, nofun⟩
  | @tail stage inner hvisits henters ih =>
    obtain ⟨descriptor, chain, hshows⟩ := ih
    cases henters with
    | field field enters =>
      obtain ⟨own, -, -, -, hinner⟩ := hshows.of_entersField hcoherent hfree
        (fun length hlength ↦ ⟨stage, hvisits, hlength⟩) enters
      exact ⟨_, _, hinner⟩
    | element position enters =>
      obtain ⟨element, -, hinner⟩ := hshows.of_entersElement hcoherent hfree enters
      exact ⟨_, _, hinner⟩

end Schema

end WireFormat
