import WireFormat.Proofs.Format.Slots
import WireFormat.Proofs.Order.Compile
import WireFormat.Proofs.Stream.Making

/-!
# Writing in either byte order

A value is written in one byte order as it is in the other: the same steps succeed, and the first
that does not fails with the same error.  Only the bytes differ, and these no step looks at.

* `Writer.Twins` — two writers in the same state but for the order of bytes;
* `Tallies` — two actions that take twins to twins, or fail alike;
* `Descriptor.tallying` — a value under a descriptor in one order and in the other.
-/

namespace WireFormat

/-! ## Twins -/

/-- The container with its bytes in an order. -/
def Container.inOrder (order : ByteOrder) (container : Container) : Container :=
  { container with swap := order.reverses container.width }

/-- The pending container, if any, in an order. -/
def Packer.ofPending (order : ByteOrder) (active : Option Container) : Packer :=
  ⟨active.map (Container.inOrder order)⟩

variable {order other : ByteOrder}

theorem Packer.length_pending_ofPending (active : Option Container) :
    (ofPending order active).pending.length = (ofPending other active).pending.length := by
  cases active with
  | none => rfl
  | some container => exact (length_wireBytes ..).trans (length_wireBytes ..).symm

/-- Two writers that have written as much and hold the same bits, each in an order of its own. -/
structure Writer.Twins (order other : ByteOrder) (writer twin : Writer) : Prop where
  capacity : writer.sink.capacity = none
  capacity' : twin.sink.capacity = none
  position : writer.position = twin.position
  packer : ∃ active : Option Container,
    writer.packer = .ofPending order active ∧ twin.packer = .ofPending other active

/-- The same result in twin states, or the same error. -/
inductive Tallied (order other : ByteOrder) {α : Type} :
    EStateM.Result Error Writer α → EStateM.Result Error Writer α → Prop where
  | ok (a : α) {writer twin : Writer} (twins : writer.Twins order other twin) :
      Tallied order other (.ok a writer) (.ok a twin)
  | error (error : Error) (writer twin : Writer) :
      Tallied order other (.error error writer) (.error error twin)

/-- From twin states, two actions come to the same. -/
def Tallies (order other : ByteOrder) {α : Type} (action action' : WriteM α) : Prop :=
  ∀ writer twin : Writer, writer.Twins order other twin →
    Tallied order other (action writer) (action' twin)

namespace Tallies

variable {α β : Type} {action action' : WriteM α} {f g : α → WriteM β}

theorem pure (a : α) : Tallies order other (Pure.pure a) (Pure.pure a) :=
  fun _ _ htwins ↦ .ok a htwins

theorem throw (error : Error) :
    Tallies order other (MonadExcept.throw error : WriteM α) (MonadExcept.throw error) :=
  fun writer twin _ ↦ .error error writer twin

theorem ofData (result : Except DataError α) :
    Tallies order other (WriteM.ofData result) (WriteM.ofData result) := by
  cases result with
  | ok a => exact .pure a
  | error fault => exact .throw _

theorem bind (h : Tallies order other action action')
    (hmore : ∀ a, Tallies order other (f a) (g a)) :
    Tallies order other (action >>= f) (action' >>= g) := by
  intro writer twin htwins
  change Tallied order other (EStateM.bind action f writer) (EStateM.bind action' g twin)
  unfold EStateM.bind
  have hfirst := h writer twin htwins
  generalize action writer = outcome at hfirst
  generalize action' twin = outcome' at hfirst
  cases hfirst with
  | ok a hmiddle => exact hmore a _ _ hmiddle
  | error error writer twin => exact .error error writer twin

theorem locate (h : Tallies order other action action') (path : Path) :
    Tallies order other (WriteM.locate path action) (WriteM.locate path action') := by
  intro writer twin htwins
  change Tallied order other (EStateM.adaptExcept _ action writer)
    (EStateM.adaptExcept _ action' twin)
  unfold EStateM.adaptExcept
  have haction := h writer twin htwins
  generalize action writer = outcome at haction
  generalize action' twin = outcome' at haction
  cases haction with
  | ok a hnext => exact .ok a hnext
  | error error writer twin => exact .error _ writer twin

end Tallies

/-! ## Operations of a writer -/

namespace Writer

variable {writer twin : Writer}

theorem Twins.sent (h : writer.Twins order other twin) {bytes bytes' : List UInt8}
    (hlength : bytes.length = bytes'.length) :
    (writer.sent bytes).Twins order other (twin.sent bytes') where
  capacity := h.capacity
  capacity' := h.capacity'
  position := congrArg₂ (· + ·) h.position hlength
  packer := h.packer

/-- The packer does not matter if it is replaced. -/
theorem Twins.withPacker (h : writer.Twins order other twin) (active : Option Container) :
    { writer with packer := .ofPending order active }.Twins order other
      { twin with packer := .ofPending other active } :=
  ⟨h.capacity, h.capacity', h.position, active, rfl, rfl⟩

theorem tallies_sendAll {bytes bytes' : List UInt8} (hlength : bytes.length = bytes'.length) :
    Tallies order other (sendAll bytes) (sendAll bytes') := by
  intro writer twin htwins
  rw [sendAll_of_capacity_eq_none writer htwins.capacity,
    sendAll_of_capacity_eq_none twin htwins.capacity']
  exact .ok () (htwins.sent hlength)

theorem tallies_flushBits : Tallies order other flushBits flushBits := by
  intro writer twin htwins
  rw [flushBits_of_capacity_eq_none htwins.capacity, flushBits_of_capacity_eq_none htwins.capacity']
  obtain ⟨active, hpacker, hpacker'⟩ := htwins.packer
  refine .ok () ((htwins.withPacker none).sent ?_)
  rw [hpacker, hpacker']
  exact Packer.length_pending_ofPending active

theorem tallies_writeBytes {bytes bytes' : List UInt8} (hlength : bytes.length = bytes'.length) :
    Tallies order other (writeBytes bytes) (writeBytes bytes') :=
  tallies_flushBits.bind fun _ ↦ tallies_sendAll hlength

theorem tallies_writeZeros (count : Nat) :
    Tallies order other (writeZeros count) (writeZeros count) := by
  rw [writeZeros, sendZeros_eq]
  exact tallies_writeBytes rfl

theorem tallies_writeRaw (width raw : Nat) :
    Tallies order other (writeRaw width raw (order.reverses width))
      (writeRaw width raw (other.reverses width)) :=
  tallies_writeBytes ((length_wireBytes ..).trans (length_wireBytes ..).symm)

end Writer

/-- What comes of packing some bits, but for the order of the bytes: the error, or the bytes that go
out and what is pending then. -/
inductive Packer.Tallied (order other : ByteOrder) :
    Except DataError (List UInt8 × Packer) → Except DataError (List UInt8 × Packer) → Prop where
  | ok {bytes bytes' : List UInt8} (active : Option Container)
      (length_eq : bytes.length = bytes'.length) :
      Tallied order other (.ok (bytes, .ofPending order active)) (.ok (bytes', .ofPending other active))
  | error (error : DataError) : Tallied order other (.error error) (.error error)

/-- In one container all bits have the same order. -/
theorem Packer.tallied_pack (active : Option Container) (value width bits : Nat) :
    Packer.Tallied order other ((ofPending order active).pack value width bits (order.reverses width))
      ((ofPending other active).pack value width bits (other.reverses width)) := by
  unfold pack
  cases Container.check width bits with
  | error error => exact .error error
  | ok =>
    change Packer.Tallied order other (if _ then _ else _) (if _ then _ else _)
    by_cases hvalue : 2 ^ bits ≤ value
    · rw [if_pos hvalue, if_pos hvalue]
      exact .error _
    rw [if_neg hvalue, if_neg hvalue]
    by_cases hbits : bits = 0
    · rw [if_pos hbits, if_pos hbits]
      exact .ok none (length_pending_ofPending active)
    rw [if_neg hbits, if_neg hbits]
    cases active with
    | none => exact .ok (some ⟨value, width, bits, false⟩) rfl
    | some active =>
      have hroom (order : ByteOrder) :
          (active.inOrder order).hasRoom width bits = active.hasRoom width bits := rfl
      change Packer.Tallied order other (if (active.inOrder order).hasRoom width bits then _ else _)
        (if (active.inOrder other).hasRoom width bits then _ else _)
      rw [hroom, hroom]
      by_cases h : active.hasRoom width bits
      · rw [if_pos h, if_pos h]
        have hwidth := (Container.hasRoom_iff.1 h).1
        rw [if_pos (by rw [← hwidth]; rfl), if_pos (by rw [← hwidth]; rfl)]
        exact .ok (some (active.add value bits)) rfl
      · rw [if_neg h, if_neg h]
        exact .ok (some ⟨value, width, bits, false⟩)
          ((length_wireBytes ..).trans (length_wireBytes ..).symm)

theorem Writer.tallies_pack (value width bits : Nat) :
    Tallies order other (pack value width bits (order.reverses width))
      (pack value width bits (other.reverses width)) := by
  intro writer twin htwins
  obtain ⟨active, hpacker, hpacker'⟩ := htwins.packer
  have htally := @Packer.tallied_pack order other active value width bits
  generalize hpack : (Packer.ofPending order active).pack _ _ _ _ = outcome at htally
  generalize hpack' : (Packer.ofPending other active).pack _ _ _ _ = outcome' at htally
  rw [← hpacker] at hpack
  rw [← hpacker'] at hpack'
  cases htally with
  | error error =>
    rw [pack_of_pack_eq_error hpack, pack_of_pack_eq_error hpack']
    exact .error _ writer twin
  | ok active hlength =>
    rw [pack_of_pack htwins.capacity hpack, pack_of_pack htwins.capacity' hpack']
    exact .ok () ((htwins.sent hlength).withPacker active)

/-! ## Operations -/

namespace Operation

theorem tallies_encodeText {encoding : Encoding} {size : TextSize String}
    {f g : String → LengthSource} (value : Value) :
    Tallies order other (encodeText encoding (size.map f) value)
      (encodeText encoding (size.map g) value) := by
  cases value with
  | text content =>
    rw [encodeText, encodeText, pure_bind, pure_bind]
    refine (Tallies.ofData _).bind fun bytes ↦ ?_
    cases size with
    | nullTerminated =>
      dsimp only [TextSize.map]
      split
      · exact .throw _
      · exact (Writer.tallies_writeBytes rfl).bind fun _ ↦ Writer.tallies_writeZeros 1
    | sized policy =>
      have hslots : textSlots encoding (policy.map f) bytes.length =
          textSlots encoding (policy.map g) bytes.length := by cases policy <;> rfl
      dsimp only [TextSize.map]
      rw [hslots]
      refine (Tallies.ofData _).bind fun slots ↦ ?_
      split
      · exact .throw _
      · exact (Writer.tallies_writeBytes rfl).bind fun _ ↦ Writer.tallies_writeZeros _
  | _ => exact .throw _

theorem tallies_forItems {action action' : Nat → Value → WriteM Unit}
    (h : ∀ position item, Tallies order other (action position item) (action' position item))
    (position : Nat) (items : List Value) :
    Tallies order other (forItems action position items) (forItems action' position items) := by
  induction items generalizing position with
  | nil => exact .pure ()
  | cons item items ih => exact (h position item).bind fun _ ↦ ih (position + 1)

theorem tallies_encode_list {element element' : Operation} {size : SizePolicy String}
    {f g : String → LengthSource} {default? : Option Value}
    (h : ∀ traversal item,
      Tallies order other (element.encode traversal item) (element'.encode traversal item))
    (traversal : Traversal Members) (value : Value) :
    Tallies order other (Operation.encode traversal value (.list element (size.map f) default?))
      (Operation.encode traversal value (.list element' (size.map g) default?)) := by
  cases value with
  | list items =>
    have hfree : Tallies order other
        (WriteM.ofData (freeSlots? (size.map f) default? items.length))
        (WriteM.ofData (freeSlots? (size.map g) default? items.length)) := by
      rw [freeSlots?, freeSlots?, SizePolicy.slots?_map, SizePolicy.slots?_map]
      exact .ofData _
    rw [Operation.encode, Operation.encode, pure_bind, pure_bind]
    refine hfree.bind fun free ↦ ?_
    have hitems (position more) : Tallies order other
        (forItems (encodeItem traversal element) position more)
        (forItems (encodeItem traversal element') position more) :=
      tallies_forItems (fun position item ↦ (h _ item).locate _) position more
    refine (hitems 0 items).bind fun _ ↦ ?_
    cases free with
    | none => exact .pure ()
    | some slots =>
      dsimp only
      rw [forCopies_eq, forCopies_eq]
      exact hitems _ _
  | _ =>
    rw [Operation.encode, Operation.encode]
    · exact .throw _
    · rintro _ ⟨⟩
    · rintro _ ⟨⟩

theorem tallies_ofScalar (kind : ScalarKind) (flavor : Flavor) (traversal : Traversal Members)
    (value : Value) : Tallies order other ((ofScalar kind order flavor).encode traversal value)
      ((ofScalar kind other flavor).encode traversal value) := by
  rw [ofScalar, ofScalar, Operation.encode, Operation.encode]
  exact (Tallies.ofData _).bind fun raw ↦ Writer.tallies_writeRaw _ raw

end Operation

/-! ## Descriptors -/

namespace Descriptor

variable {descriptor : Descriptor} {chain chain' : List Enclosure}

theorem tallies_encodeLength (length : Nat) :
    Tallies order other (((descriptor.inOrder order).operation chain).encodeLength length)
      (((descriptor.inOrder other).operation chain').encodeLength length) := by
  obtain ⟨kind, byteOrder, hasFixedSize, minSize⟩ := descriptor
  cases kind with
  | scalar kind | boolean kind | enum kind =>
    exact (Tallies.ofData _).bind fun raw ↦ Writer.tallies_writeRaw _ raw
  | bits => exact (Tallies.ofData _).bind fun bits ↦ Writer.tallies_pack bits _ _
  | _ => exact .throw _

/-- What is written for a value in one order tallies with what is in the other. -/
def Tallying (order other : ByteOrder) (descriptor : Descriptor) : Prop :=
  ∀ (chain chain' : List Enclosure) (traversal : Traversal Members) (value : Value),
    Tallies order other (((descriptor.inOrder order).operation chain).encode traversal value)
      (((descriptor.inOrder other).operation chain').encode traversal value)

end Descriptor

theorem FieldDescriptor.tallies_padding (padAfter : Bool) : Tallies order other
    (if padAfter then Writer.flushBits else pure ())
    (if padAfter then Writer.flushBits else pure ()) := by
  split
  · exact Writer.tallies_flushBits
  · exact .pure ()

/-- The fields of a record are written alike, one after the other. -/
theorem FieldDescriptor.tallies_encodeAll {typeName : String} {fields rest : List FieldDescriptor}
    {chain chain' : List Enclosure}
    (h : ∀ field ∈ rest, field.descriptor.Tallying order other)
    (traversal : Traversal Members) (members : Members) :
    Tallies order other
      (FieldPlan.encodeAll traversal members (((allInOrder order rest).filter serialize).map
        (plan typeName (allInOrder order fields) chain)))
      (FieldPlan.encodeAll traversal members (((allInOrder other rest).filter serialize).map
        (plan typeName (allInOrder other fields) chain'))) := by
  induction rest with
  | nil => exact .pure ()
  | cons field rest ih =>
    obtain ⟨hfield, hrest⟩ := List.forall_mem_cons.1 h
    obtain ⟨name, place, descriptor, serialize, lengthOf, padAfter⟩ := field
    rw [allInOrder, allInOrder]
    cases serialize with
    | false => exact ih hrest
    | true =>
      rw [List.filter_cons_of_pos rfl, List.filter_cons_of_pos rfl, List.map_cons, List.map_cons,
        plan, plan, FieldPlan.encodeAll, FieldPlan.encodeAll]
      refine .bind (.locate ?_ _) fun _ ↦ ih hrest
      cases lengthOf with
      | none =>
        dsimp only [Option.bind_none]
        cases members.find? name with
        | none => exact .throw _
        | some value => exact (hfield _ _ _ value).bind fun _ ↦ tallies_padding padAfter
      | some key =>
        dsimp only [Option.bind_some]
        rw [feedOf_inOrder, feedOf_inOrder]
        cases feedOf (demandsAll typeName fields fields) key with
        | none =>
          dsimp only
          cases members.find? name with
          | none => exact .throw _
          | some value => exact (hfield _ _ _ value).bind fun _ ↦ tallies_padding padAfter
        | some feed =>
          dsimp only
          cases feed.measured members with
          | error fault => exact (Tallies.throw _).bind fun _ ↦ tallies_padding padAfter
          | ok length =>
            exact (Descriptor.tallies_encodeLength length).bind fun _ ↦ tallies_padding padAfter

/-- A value is written in one order as it is in the other: up to the same error, or in full. -/
theorem Descriptor.tallying {descriptor : Descriptor}
    (hcoherent : descriptor.Everywhere Coherent)
    (hcodec : descriptor.Everywhere fun inner ↦ inner.isCodec = false) :
    descriptor.Tallying order other := by
  induction descriptor using Descriptor.induction with
  | step descriptor ihelement ihfields =>
    obtain ⟨kind, byteOrder, hasFixedSize, minSize⟩ := descriptor
    intro chain chain' traversal value
    cases kind with
    | scalar kind => exact Operation.tallies_ofScalar kind .native traversal value
    | boolean repr => exact Operation.tallies_ofScalar _ .boolean traversal value
    | enum repr type => exact Operation.tallies_ofScalar _ .enum traversal value
    | bits content repr width container =>
      change Tallies order other (Operation.encode traversal value (.bits ..))
        (Operation.encode traversal value (.bits ..))
      rw [Operation.encode, Operation.encode]
      split
      · exact Writer.tallies_flushBits
      · exact (Tallies.ofData _).bind fun bits ↦ Writer.tallies_pack bits _ _
    | text encoding size => exact Operation.tallies_encodeText value
    | list element size =>
      have helement := ihelement element rfl (hcoherent.of_element rfl) (hcodec.of_element rfl)
      change Tallies order other
        (Operation.encode traversal value (.list _ _ (element.inOrder order).default?))
        (Operation.encode traversal value (.list _ _ (element.inOrder other).default?))
      rw [default?_inOrder, default?_inOrder]
      exact Operation.tallies_encode_list (fun traversal item ↦ helement [] [] traversal item)
        traversal value
    | record name fields =>
      have hnames (order : ByteOrder) :
          ((FieldDescriptor.allInOrder order fields).map FieldDescriptor.name).Nodup := by
        rw [FieldDescriptor.allInOrder_eq, List.map_map]
        exact hcoherent.here.1.names
      rw [inOrder, inOrder, DescriptorKind.inOrder, DescriptorKind.inOrder,
        operation_record (hnames order), operation_record (hnames other), Operation.encode,
        Operation.encode]
      refine (Tallies.ofData _).bind fun members ↦ ?_
      rw [RecordPlan.encode, RecordPlan.encode]
      refine Writer.tallies_flushBits.bind fun _ ↦
        (FieldDescriptor.tallies_encodeAll (fun field hmem ↦ ?_) _ members).bind fun _ ↦
          Writer.tallies_flushBits
      exact ihfields field hmem (hcoherent.of_field hmem) (hcodec.of_field hmem)
    | custom codec context => cases hcodec.here

end WireFormat
