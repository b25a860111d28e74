import WireFormat.Proofs.Format.Canonical
import WireFormat.Proofs.Order.Twins
import WireFormat.Proofs.Run.Capacity

/-!
# Spans

What is written in one byte order is what is written in the other with each scalar and each bit
container turned around, and each text as it is.

* `Descriptor.Parts` — the scalars, texts and bits of a value, in no byte order;
* `Part.spans` — the scalars, containers and texts that these come to;
* `Span.bytes` — a span in either order;
* `Schema.toBytes_inOrder` — a layout with no byte order declared inside, in one order and in the
  other.
-/

namespace WireFormat

/-! ## Parts -/

/-- One thing that is written, in no byte order. -/
inductive Part where
  /-- A scalar of `width` bytes. -/
  | scalar (width raw : Nat)
  /-- The bytes of a text, and those that end it or fill its slot. -/
  | text (bytes padding : List UInt8)
  /-- The lowest `width` bits of a container of `container` bytes that are still free. -/
  | bits (value container width : Nat)
  /-- The end of a container. -/
  | align
deriving DecidableEq, Repr

/-- The moves of a part in a byte order. -/
def Part.moves (order : ByteOrder) : Part → List Move
  | scalar width raw => [.bytes (wireBytes width raw (order.reverses width))]
  | text bytes padding => [.bytes bytes, .bytes padding]
  | bits value container width => [.bits value container width (order.reverses container)]
  | align => [.bytes []]

/-- A value as a scalar. -/
def Flavor.PartsOf (flavor : Flavor) (kind : ScalarKind) (value : Value) (parts : List Part) :
    Prop :=
  ∃ raw, flavor.encode kind value = .ok raw ∧ parts = [.scalar kind.width raw]

/-- A length in the field that carries it. -/
def DescriptorKind.PartsOfLength (length : Nat) (parts : List Part) : DescriptorKind → Prop
  | .scalar kind => ∃ raw, Value.integerToRaw kind length = .ok raw ∧
      parts = [.scalar kind.width raw]
  | .bits .integer repr width container => ∃ bits, bitsOf length repr.isSigned width = .ok bits ∧
      parts = [.bits bits container width]
  | _ => False

namespace FieldDescriptor

/-- The part that ends the container after a field, if the field asks for it. -/
def alignment (padAfter : Bool) : List Part := if padAfter then [.align] else []

/-- A field by itself.  If it carries a length, that is what counts, otherwise the member of its
name. -/
def PartsOfOwn (demands : List Demand) (members : Members) (name : String) (descriptor : Descriptor)
    (lengthOf : Option String) (partsOf : Value → List Part → Prop) (parts : List Part) : Prop :=
  match lengthOf with
  | some key => ∃ feed length, feedOf demands key = some feed ∧
      feed.count (.record members) = some length ∧ descriptor.kind.PartsOfLength length parts
  | none => ∃ value, members.find? name = some value ∧ partsOf value parts

end FieldDescriptor

mutual

/-- What a value consists of on the wire, in no byte order. -/
def Descriptor.Parts : Descriptor → Value → List Part → Prop
  | ⟨kind, _, _, _⟩ => kind.Parts

/-- What a value of a kind consists of. -/
def DescriptorKind.Parts : DescriptorKind → Value → List Part → Prop
  | .scalar kind, value, parts => Flavor.native.PartsOf kind value parts
  | .boolean repr, value, parts => Flavor.boolean.PartsOf (.integer repr) value parts
  | .enum repr _, value, parts => Flavor.enum.PartsOf (.integer repr) value parts
  | .bits content repr width container, value, parts =>
    if width = 0 then
      parts = [.align]
    else
      ∃ bits, content.flavor.encodeBits (.integer repr) width value = .ok bits ∧
        parts = [.bits bits container width]
  | .text encoding size, value, parts =>
    ∃ text bytes padding, value = .text text ∧ encoding.encode text = .ok bytes ∧
      size.Writes encoding bytes [.bytes bytes, .bytes padding] ∧ parts = [.text bytes padding]
  | .list element size, value, parts =>
    ∃ items filled each, value = .list items ∧ size.filled? element.default? items = some filled ∧
      List.Forall₂ element.Parts filled each ∧ parts = each.flatten
  | .record name fields, value, parts =>
    ∃ members inner, value = .record members ∧
      FieldDescriptor.PartsOfAll (FieldDescriptor.demandsAll name fields fields) members fields
        inner ∧
      parts = .align :: inner ++ [.align]
  | .custom _ _, _, _ => False

/-- What the members of a record consist of. -/
def FieldDescriptor.PartsOfAll (demands : List Demand) (members : Members) :
    List FieldDescriptor → List Part → Prop
  | [], parts => parts = []
  | ⟨name, _, descriptor, serialize, lengthOf, padAfter⟩ :: rest, parts =>
    if serialize then
      ∃ own more,
        FieldDescriptor.PartsOfOwn demands members name descriptor lengthOf descriptor.Parts own ∧
        FieldDescriptor.PartsOfAll demands members rest more ∧
        parts = own ++ FieldDescriptor.alignment padAfter ++ more
    else
      FieldDescriptor.PartsOfAll demands members rest parts

end

/-! ## Parts and moves -/

variable {order other : ByteOrder} {value : Value} {moves : List Move}

/-- Some moves are those of parts that have a property. -/
def Part.Make (order : ByteOrder) (P : List Part → Prop) (moves : List Move) : Prop :=
  ∃ parts, P parts ∧ moves = parts.flatMap (Part.moves order)

theorem Part.make_singleton_iff {α : Type} {Q : α → Prop} {f : α → Part} {g : α → Move}
    (h : ∀ a, (f a).moves order = [g a]) :
    (∃ a, Q a ∧ moves = [g a]) ↔ Part.Make order (fun parts ↦ ∃ a, Q a ∧ parts = [f a]) moves := by
  constructor
  · rintro ⟨a, ha, rfl⟩
    exact ⟨_, ⟨a, ha, rfl⟩, by simp [h]⟩
  · rintro ⟨_, ⟨a, ha, rfl⟩, rfl⟩
    exact ⟨a, ha, by simp [h]⟩

theorem Flavor.writesScalar_iff {flavor : Flavor} {kind : ScalarKind} :
    flavor.WritesScalar kind order value moves ↔ Part.Make order (flavor.PartsOf kind value) moves :=
  Part.make_singleton_iff fun _ ↦ rfl

theorem Descriptor.writesLength_inOrder_iff {descriptor : Descriptor} {length : Nat} :
    (descriptor.inOrder order).kind.WritesLength order length moves ↔
      Part.Make order (fun parts ↦ descriptor.kind.PartsOfLength length parts) moves := by
  obtain ⟨kind, byteOrder, hasFixedSize, minSize⟩ := descriptor
  have hnone : False ↔ Part.Make order (fun _ ↦ False) moves := by simp [Part.Make]
  cases kind with
  | scalar kind => exact Part.make_singleton_iff fun _ ↦ rfl
  | bits content repr width container =>
    cases content with
    | integer => exact Part.make_singleton_iff fun _ ↦ rfl
    | _ => exact hnone
  | _ => exact hnone

theorem TextSize.Writes.exists_padding {κ : Type} {encoding : Encoding} {bytes : List UInt8}
    {size : TextSize κ} (h : size.Writes encoding bytes moves) :
    ∃ padding, moves = [.bytes bytes, .bytes padding] := by
  cases h <;> exact ⟨_, rfl⟩

/-- The parts of some items, one after the other, make the moves of each. -/
theorem Part.flatMap_moves_flatten (each : List (List Part)) :
    each.flatten.flatMap (Part.moves order) =
      (each.map (List.flatMap (Part.moves order))).flatten := by
  rw [List.flatMap_def, List.map_flatten, List.flatten_flatten, List.map_map]
  rfl

theorem Part.make_forall₂_iff {element : Descriptor}
    (h : ∀ value moves, (element.inOrder order).Writes value moves ↔
      Part.Make order (element.Parts value) moves)
    {items : List Value} {each : List (List Move)} :
    List.Forall₂ (element.inOrder order).Writes items each ↔
      ∃ parts, List.Forall₂ element.Parts items parts ∧
        each = parts.map (List.flatMap (Part.moves order)) := by
  constructor
  · intro hall
    induction hall with
    | nil => exact ⟨[], .nil, rfl⟩
    | cons hitem _ ih =>
      obtain ⟨own, hown, rfl⟩ := (h _ _).1 hitem
      obtain ⟨parts, hparts, rfl⟩ := ih
      exact ⟨own :: parts, .cons hown hparts, rfl⟩
  · rintro ⟨parts, hall, rfl⟩
    induction hall with
    | nil => exact .nil
    | cons hitem _ ih => exact .cons ((h _ _).2 ⟨_, hitem, rfl⟩) ih

namespace FieldDescriptor

theorem flatMap_alignment (padAfter : Bool) :
    (alignment padAfter).flatMap (Part.moves order) = padding padAfter := by
  cases padAfter <;> rfl

theorem writesOwn_inOrder_iff {demands demands' : List Demand} {members : Members} {name : String}
    {descriptor : Descriptor} {lengthOf : Option String}
    (hfeeds : ∀ key, feedOf demands key = feedOf demands' key)
    (h : ∀ value moves, (descriptor.inOrder order).Writes value moves ↔
      Part.Make order (descriptor.Parts value) moves) :
    WritesOwn demands members name (descriptor.inOrder order) lengthOf
      (descriptor.inOrder order).Writes moves ↔
        Part.Make order (PartsOfOwn demands' members name descriptor lengthOf descriptor.Parts)
          moves := by
  cases lengthOf with
  | none =>
    constructor
    · rintro ⟨value, hfind, hwrites⟩
      obtain ⟨parts, hparts, rfl⟩ := (h _ _).1 hwrites
      exact ⟨parts, ⟨value, hfind, hparts⟩, rfl⟩
    · rintro ⟨parts, ⟨value, hfind, hparts⟩, rfl⟩
      exact ⟨value, hfind, (h _ _).2 ⟨parts, hparts, rfl⟩⟩
  | some key =>
    constructor
    · rintro ⟨feed, length, hfeed, hcount, hwrites⟩
      rw [Descriptor.inOrder_byteOrder] at hwrites
      obtain ⟨parts, hparts, rfl⟩ := Descriptor.writesLength_inOrder_iff.1 hwrites
      exact ⟨parts, ⟨feed, length, (hfeeds key).symm.trans hfeed, hcount, hparts⟩, rfl⟩
    · rintro ⟨parts, ⟨feed, length, hfeed, hcount, hparts⟩, rfl⟩
      refine ⟨feed, length, (hfeeds key).trans hfeed, hcount, ?_⟩
      rw [Descriptor.inOrder_byteOrder]
      exact Descriptor.writesLength_inOrder_iff.2 ⟨parts, hparts, rfl⟩

theorem writesAll_inOrder_iff {demands demands' : List Demand} {members : Members}
    {rest : List FieldDescriptor} (hfeeds : ∀ key, feedOf demands key = feedOf demands' key)
    (h : ∀ field ∈ rest, ∀ value moves, (field.descriptor.inOrder order).Writes value moves ↔
      Part.Make order (field.descriptor.Parts value) moves) :
    WritesAll demands members (allInOrder order rest) moves ↔
      Part.Make order (PartsOfAll demands' members rest) moves := by
  induction rest generalizing moves with
  | nil => simp [allInOrder, WritesAll, PartsOfAll, Part.Make]
  | cons field rest ih =>
    obtain ⟨hfield, hrest⟩ := List.forall_mem_cons.1 h
    obtain ⟨name, place, descriptor, serialize, lengthOf, padAfter⟩ := field
    cases serialize with
    | false => exact ih hrest
    | true =>
      have hown {moves : List Move} := @writesOwn_inOrder_iff order moves _ _ members name _ lengthOf
        hfeeds hfield
      constructor
      · rintro ⟨own, more, hwrites, hmore, rfl⟩
        obtain ⟨parts, hparts, rfl⟩ := hown.1 hwrites
        obtain ⟨parts', hparts', rfl⟩ := (ih hrest).1 hmore
        refine ⟨_, ⟨parts, parts', hparts, hparts', rfl⟩, ?_⟩
        rw [List.flatMap_append, List.flatMap_append, flatMap_alignment]
      · rintro ⟨_, ⟨parts, parts', hparts, hparts', rfl⟩, rfl⟩
        refine ⟨_, _, hown.2 ⟨parts, hparts, rfl⟩, (ih hrest).2 ⟨parts', hparts', rfl⟩, ?_⟩
        rw [List.flatMap_append, List.flatMap_append, flatMap_alignment]

end FieldDescriptor

/-- In one byte order throughout, a value makes the moves of its parts. -/
theorem Descriptor.writes_inOrder_iff (descriptor : Descriptor) (value : Value)
    (moves : List Move) : (descriptor.inOrder order).Writes value moves ↔
      Part.Make order (descriptor.Parts value) moves := by
  induction descriptor using Descriptor.induction generalizing value moves with
  | step descriptor ihelement ihfields =>
    obtain ⟨kind, byteOrder, hasFixedSize, minSize⟩ := descriptor
    cases kind with
    | scalar kind | boolean kind | enum kind => exact Flavor.writesScalar_iff
    | bits content repr width container =>
      change (if width = 0 then _ else _) ↔
        Part.Make order (fun parts ↦ if width = 0 then _ else _) moves
      by_cases hwidth : width = 0
      · simp only [hwidth, if_true, Part.Make, exists_eq_left]
        rfl
      · simp only [hwidth, if_false]
        exact Part.make_singleton_iff fun _ ↦ rfl
    | text encoding size =>
      constructor
      · rintro ⟨text, bytes, rfl, hencode, hwrites⟩
        obtain ⟨padding, rfl⟩ := hwrites.exists_padding
        exact ⟨_, ⟨text, bytes, padding, rfl, hencode, hwrites, rfl⟩, rfl⟩
      · rintro ⟨_, ⟨text, bytes, padding, rfl, hencode, hwrites, rfl⟩, rfl⟩
        exact ⟨text, bytes, rfl, hencode, hwrites⟩
    | list element size =>
      have hitems {items each} := @Part.make_forall₂_iff order element
        (ihelement element rfl) items each
      constructor
      · rintro ⟨items, filled, each, rfl, hfilled, hall, rfl⟩
        rw [default?_inOrder] at hfilled
        obtain ⟨parts, hparts, rfl⟩ := hitems.1 hall
        exact ⟨_, ⟨items, filled, parts, rfl, hfilled, hparts, rfl⟩,
          (Part.flatMap_moves_flatten parts).symm⟩
      · rintro ⟨_, ⟨items, filled, parts, rfl, hfilled, hparts, rfl⟩, rfl⟩
        refine ⟨items, filled, _, rfl, ?_, hitems.2 ⟨parts, hparts, rfl⟩,
          Part.flatMap_moves_flatten parts⟩
        rwa [default?_inOrder]
    | record name fields =>
      have hfields {members moves} := @FieldDescriptor.writesAll_inOrder_iff order moves _ _ members
        fields (FieldDescriptor.feedOf_inOrder order name fields) ihfields
      constructor
      · rintro ⟨members, inner, rfl, hwrites, rfl⟩
        obtain ⟨parts, hparts, rfl⟩ := hfields.1 hwrites
        refine ⟨_, ⟨members, parts, rfl, hparts, rfl⟩, ?_⟩
        simp [Part.moves]
      · rintro ⟨_, ⟨members, parts, rfl, hparts, rfl⟩, rfl⟩
        refine ⟨members, _, rfl, hfields.2 ⟨parts, hparts, rfl⟩, ?_⟩
        simp [Part.moves]
    | custom codec context => exact ⟨False.elim, fun ⟨_, h, _⟩ ↦ h⟩

/-! ## Spans -/

/-- A piece of what is written, with its bytes in little-endian order. -/
inductive Span where
  | scalar (bytes : List UInt8)
  /-- A bit container. -/
  | container (bytes : List UInt8)
  /-- The slot of a text, with what ends the text or fills the slot. -/
  | text (bytes : List UInt8)
deriving DecidableEq, Repr

/-- The bytes of a span in an order.  A text has only one. -/
def Span.bytes : ByteOrder → Span → List UInt8
  | .little, scalar bytes | .little, container bytes => bytes
  | .big, scalar bytes | .big, container bytes => bytes.reverse
  | _, text bytes => bytes

/-- The span of a container that may be pending. -/
def Span.ofPending (pending : Option Container) : List Span :=
  (pending.map fun active ↦ container (littleEndian active.width active.word)).toList

/-- The spans that parts come to after a container that may be pending: one for each scalar, for
each text, and for as many bits that follow each other as fit a container. -/
def Part.spans : Option Container → List Part → List Span
  | pending, [] => Span.ofPending pending
  | pending, scalar width raw :: rest =>
    Span.ofPending pending ++ .scalar (littleEndian width raw) :: spans none rest
  | pending, text bytes padding :: rest =>
    Span.ofPending pending ++ .text (bytes ++ padding) :: spans none rest
  | pending, align :: rest => Span.ofPending pending ++ spans none rest
  | pending, bits value container width :: rest =>
    match pending.filter fun active ↦ active.hasRoom container width with
    | some active => spans (some (active.add value width)) rest
    | none =>
      Span.ofPending pending ++ spans (some (.start value container width false)) rest

/-- A value comes to some spans. -/
def Descriptor.ComesTo (descriptor : Descriptor) (value : Value) (spans : List Span) : Prop :=
  ∃ parts, descriptor.Parts value parts ∧ spans = Part.spans none parts

/-- In the big-endian order the bytes come the other way round. -/
theorem wireBytes_reverses (order : ByteOrder) (width raw : Nat) :
    wireBytes width raw (order.reverses width) =
      Span.bytes order (.scalar (littleEndian width raw)) := by
  rcases order with _ | _
  · simp [wireBytes, ByteOrder.reverses, Span.bytes]
  · by_cases hwidth : 1 < width
    · simp [ByteOrder.reverses, Span.bytes, hwidth, wireBytes_true]
    · simp [wireBytes, ByteOrder.reverses, Span.bytes, hwidth,
        littleEndian_reverse_of_le_one (Nat.not_lt.1 hwidth)]

variable {pending : Option Container} {word : Nat} {bytes : List UInt8} {parts : List Part}

/-- The bytes of a pending container that goes out as it is. -/
theorem pendingBytes_inOrder (order : ByteOrder) (pending : Option Container) :
    pendingBytes (pending.map (.inOrder order)) (pendingWord (pending.map (.inOrder order))) =
      (Span.ofPending pending).flatMap (Span.bytes order) := by
  cases pending with
  | none => rfl
  | some active =>
    change wireBytes active.width active.word (order.reverses active.width) = _
    rw [wireBytes_reverses]
    cases order <;> simp [Span.ofPending, Span.bytes]

theorem Emits.eq_of_nil (h : Emits pending [] word bytes) :
    word = pendingWord pending ∧ bytes = [] := by
  cases h
  exact ⟨rfl, rfl⟩

/-- Bytes end the container, and what follows starts from there. -/
theorem Emits.exists_of_bytes {own : List UInt8} (h : Emits pending (.bytes own :: moves) word bytes) :
    word = pendingWord pending ∧
      ∃ word' rest, Emits none moves word' rest ∧ bytes = own ++ rest := by
  cases h with
  | bytes rest => exact ⟨rfl, _, _, rest, rfl⟩

/-- What can be made of parts in one order can be made of them in the other, and comes to their
spans in this order. -/
theorem Part.exists_emits_spans (other : ByteOrder)
    (h : Emits (pending.map (.inOrder order)) (parts.flatMap (Part.moves order)) word bytes) :
    ∃ bytes', Emits (pending.map (.inOrder other)) (parts.flatMap (Part.moves other)) word bytes' ∧
      pendingBytes (pending.map (.inOrder other)) word ++ bytes' =
        (spans pending parts).flatMap (Span.bytes other) := by
  have hword (pending : Option Container) : pendingWord (pending.map (.inOrder order)) =
      pendingWord (pending.map (.inOrder other)) := by cases pending <;> rfl
  induction parts generalizing pending word bytes with
  | nil =>
    obtain ⟨rfl, -⟩ := h.eq_of_nil
    rw [hword]
    exact ⟨[], .done _, by rw [List.append_nil, pendingBytes_inOrder, spans]⟩
  | cons part rest ih =>
    rw [List.flatMap_cons] at h ⊢
    cases part with
    | scalar width raw =>
      obtain ⟨rfl, word, more, hrest, rfl⟩ := Emits.exists_of_bytes h
      obtain ⟨more', hmore, hspans⟩ := @ih none _ _ hrest
      rw [hword]
      refine ⟨_, .bytes hmore, ?_⟩
      rw [pendingBytes_inOrder, wireBytes_reverses, spans, List.flatMap_append, List.flatMap_cons,
        ← hspans]
      rfl
    | text own padding =>
      obtain ⟨rfl, word, more, hrest, rfl⟩ := Emits.exists_of_bytes (Emits.append_bytes h)
      obtain ⟨more', hmore, hspans⟩ := @ih none _ _ hrest
      rw [hword]
      refine ⟨_, .bytes (.bytes hmore), ?_⟩
      rw [pendingBytes_inOrder, spans, List.flatMap_append, List.flatMap_cons, ← hspans,
        ← List.append_assoc own]
      cases other <;> rfl
    | align =>
      obtain ⟨rfl, word, more, hrest, rfl⟩ := Emits.exists_of_bytes h
      obtain ⟨more', hmore, hspans⟩ := @ih none _ _ hrest
      rw [hword]
      refine ⟨_, .bytes hmore, ?_⟩
      rw [pendingBytes_inOrder, spans, List.flatMap_append, ← hspans]
      rfl
    | bits value container width =>
      have hstart := @ih (some (.start value container width false))
      cases pending with
      | none =>
        cases h with
        | start check value_lt full hrest =>
          obtain ⟨more', hmore, hspans⟩ := hstart hrest
          exact ⟨_, .start check value_lt nofun hmore, by rw [spans]; exact hspans⟩
      | some active =>
        cases h with
        | add check value_lt room same hrest =>
          obtain ⟨more', hmore, hspans⟩ := @ih (some (active.add value width)) _ _ hrest
          have hwidth := (Container.hasRoom_iff.1 room).1
          have hroom : active.hasRoom container width := room
          refine ⟨more', .add check value_lt hroom (congrArg other.reverses hwidth) hmore, ?_⟩
          rw [spans, Option.filter_some, if_pos hroom]
          exact hspans
        | start check value_lt full hrest =>
          obtain ⟨more', hmore, hspans⟩ := hstart hrest
          have hfull : active.hasRoom container width = false := full (active.inOrder order) rfl
          refine ⟨_, .start check value_lt ?_ hmore, ?_⟩
          · rintro _ ⟨⟩
            exact hfull
          · rw [spans, Option.filter_some, if_neg (by rw [hfull]; exact Bool.false_ne_true)]
            dsimp only
            rw [List.flatMap_append, ← hspans, ← pendingBytes_inOrder]
            rfl

/-- The container that is pending at the end counts as if it were ended. -/
theorem Part.spans_append_align (pending : Option Container) (parts : List Part) :
    spans pending (parts ++ [.align]) = spans pending parts := by
  induction parts generalizing pending with
  | nil => simp [spans, Span.ofPending]
  | cons part rest ih =>
    cases part with
    | bits value container width =>
      rw [List.cons_append, spans, spans]
      split <;> rw [ih]
    | _ => rw [List.cons_append, spans, spans, ih]

/-! ## Schemas -/

namespace Schema

variable {layout : Layout} {schema schema' : Schema}

theorem toBytes_record (schema : Schema) (members : Members) :
    schema.toBytes (.record members) =
      match schema.write members {} with
      | .ok _ writer => .ok writer.sink.bytes.toList
      | .error error _ => .error error := by
  rw [toBytes, serialize, show rootMembers (.record members) = .ok members from rfl]
  dsimp only
  cases schema.write members { sink := {} } <;> rfl

theorem toBytes_of_members_error {value : Value} {fault : DataError}
    (h : value.members = .error fault) (schema : Schema) :
    schema.toBytes value = .error (.data fault) := by
  rw [toBytes, serialize_eq_of_members_error schema h]

/-- The root of a plan writes members as the operation of the descriptor writes their record. -/
theorem encode_root (hroot : schema.descriptor.operation [] = .record schema.plan.root)
    (traversal : Traversal Members) (members : Members) :
    schema.plan.root.encode traversal members =
      (schema.descriptor.operation []).encode traversal (.record members) := by
  rw [hroot, Operation.encode]
  rfl

/-- Two schemas of one layout in different orders fail alike, or both write. -/
theorem tallies_write {descriptor : Descriptor} (htallying : descriptor.Tallying order other)
    (hdescriptor : schema.descriptor = descriptor.inOrder order)
    (hdescriptor' : schema'.descriptor = descriptor.inOrder other)
    (hroot : schema.descriptor.operation [] = .record schema.plan.root)
    (hroot' : schema'.descriptor.operation [] = .record schema'.plan.root) (members : Members) :
    Tallies order other (schema.write members) (schema'.write members) := by
  have hencode := htallying [] [] {} (.record members)
  rw [← hdescriptor, ← hdescriptor', ← encode_root hroot, ← encode_root hroot'] at hencode
  refine hencode.bind fun _ ↦ Writer.tallies_flushBits.bind fun _ ↦ ?_
  intro writer twin htwins
  change Tallied order other (.ok writer.position writer) (.ok twin.position twin)
  rw [htwins.position]
  exact .ok _ htwins

/-- A value that is written in one order comes to spans that are written in every order. -/
theorem exists_spans_of_toBytes {descriptor : Descriptor} {bytes : List UInt8}
    (hdescriptor : schema.descriptor = descriptor.inOrder order)
    (hwritten : schema.descriptor.IsWritten)
    (hroot : schema.descriptor.operation [] = .record schema.plan.root)
    (h : schema.toBytes value = .ok bytes) :
    ∃ spans, descriptor.ComesTo value spans ∧ ∀ (other : ByteOrder) (schema' : Schema),
      schema'.descriptor = descriptor.inOrder other → schema'.descriptor.IsPerformed →
        schema'.descriptor.operation [] = .record schema'.plan.root →
          schema'.toBytes value = .ok (spans.flatMap (Span.bytes other)) := by
  obtain ⟨count, sink, hserialize, -⟩ := toBytes_eq_ok_iff.1 h
  obtain ⟨moves, word, own, hwrites, hemits, -, -⟩ :=
    exists_emits_of_serialize hwritten hroot hserialize
  rw [hdescriptor] at hwrites
  obtain ⟨parts, hparts, rfl⟩ := (descriptor.writes_inOrder_iff value moves).1 hwrites
  have hend (order : ByteOrder) : parts.flatMap (Part.moves order) ++ [.bytes []] =
      (parts ++ [Part.align]).flatMap (Part.moves order) := by
    rw [List.flatMap_append]
    rfl
  rw [hend] at hemits
  refine ⟨_, ⟨parts, hparts, rfl⟩, fun other schema' hdescriptor' hperformed hroot' ↦ ?_⟩
  have hwrites' : schema'.descriptor.Writes value (parts.flatMap (Part.moves other)) := by
    rw [hdescriptor']
    exact (descriptor.writes_inOrder_iff value _).2 ⟨parts, hparts, rfl⟩
  obtain ⟨bytes', hemits', hspans⟩ := @Part.exists_emits_spans order none word own _ other hemits
  rw [← hend] at hemits'
  rw [Part.spans_append_align] at hspans
  rw [← hspans]
  exact toBytes_of_emits hperformed hroot' hwrites' hemits'

/-- A value that is not written in one order fails with the same error in the other. -/
theorem toBytes_eq_error_of_tallies (h : ∀ members,
    Tallies order other (schema.write members) (schema'.write members)) {error : Error}
    (herror : schema.toBytes value = .error error) : schema'.toBytes value = .error error := by
  cases hmembers : value.members with
  | error fault => rw [← herror, toBytes_of_members_error hmembers, toBytes_of_members_error hmembers]
  | ok members =>
    obtain rfl : value = .record members := by
      cases value <;> cases hmembers
      rfl
    have hwrite := h members {} {} ⟨rfl, rfl, rfl, none, rfl, rfl⟩
    rw [toBytes_record] at herror ⊢
    generalize schema.write members {} = outcome at hwrite herror
    generalize schema'.write members {} = outcome' at hwrite
    cases hwrite with
    | ok => cases herror
    | error => exact herror

/-- A layout with no byte order declared inside compiles in both orders, or is refused in both for
the same reason.  A value is written in both orders, or in both it fails with the same error.  What
is written are the same spans: texts are the same in both orders, and the bytes of a scalar or a
bit container come the other way round. -/
theorem toBytes_inOrder (hneutral : layout.IsNeutral) (hcodec : ¬ layout.UsesCodec) :
    (∃ error, ofLayout (layout.inOrder .little) = .error error ∧
      ofLayout (layout.inOrder .big) = .error error) ∨
    ∃ little big, ofLayout (layout.inOrder .little) = .ok little ∧
      ofLayout (layout.inOrder .big) = .ok big ∧ ∀ value,
        (∃ error, little.toBytes value = .error error ∧ big.toBytes value = .error error) ∨
        ∃ spans, little.descriptor.ComesTo value spans ∧
          little.toBytes value = .ok (spans.flatMap (Span.bytes .little)) ∧
          big.toBytes value = .ok (spans.flatMap (Span.bytes .big)) := by
  obtain hrefused | ⟨little, big, hlittle, hbig, hdescriptor'⟩ :=
    ofLayout_inOrder_cases .big .little hneutral
  · exact .inl hrefused
  have hdescriptor := descriptor_eq_inOrder .little hneutral hlittle
  obtain ⟨hdescribe, hplan⟩ := ofLayout_eq_ok hlittle
  obtain ⟨hdescribe', hplan'⟩ := ofLayout_eq_ok hbig
  obtain ⟨⟨hsettled, -⟩, hroot, -, -⟩ := Plan.ofDescriptor_eq_ok_iff.1 hplan
  obtain ⟨-, hroot', -, -⟩ := Plan.ofDescriptor_eq_ok_iff.1 hplan'
  have hcoherent := Layout.describe_coherent hdescribe
  have hfree := Layout.everywhere_isCodec_eq_false hdescribe hcodec
  have hwritten := Descriptor.isWritten hcoherent hfree hsettled
  have hperformed := Descriptor.isPerformed hcoherent
  have hperformed' := Descriptor.isPerformed (Layout.describe_coherent hdescribe')
  refine .inr ⟨little, big, hlittle, hbig, fun value ↦ ?_⟩
  cases hbytes : little.toBytes value with
  | ok bytes =>
    obtain ⟨spans, hspans, hall⟩ := exists_spans_of_toBytes hdescriptor hwritten hroot hbytes
    exact .inr ⟨spans, hspans, hbytes.symm.trans (hall .little little hdescriptor hperformed hroot),
      hall .big big hdescriptor' hperformed' hroot'⟩
  | error error =>
    have htallies := tallies_write (Descriptor.tallying hcoherent hfree) hdescriptor hdescriptor'
      hroot hroot'
    exact .inl ⟨error, rfl, toBytes_eq_error_of_tallies htallies hbytes⟩

end Schema

/-- A number, two bit fields that share a container, and a text in a slot. -/
def Layout.gauge : Layout where
  name := "Gauge"
  fields := [
    { name := "serial", order := some 0, shape := .scalar (.integer .u16) },
    { name := "mode", order := some 1, shape := .scalar (.integer .u16), bitWidth := some 3 },
    { name := "level", order := some 2, shape := .scalar (.integer .u16), bitWidth := some 9 },
    { name := "name", order := some 3, shape := .text
      tag := some (.text { encoding := .utf8, fixedLength := some 4 }) }]

/-- The descriptor of a number, two bit fields and a text in an order. -/
def Descriptor.gauge (order : ByteOrder) : Descriptor where
  kind := .record "Gauge" [
    ⟨"serial", 0, ⟨.scalar (.integer .u16), order, true, 2⟩, true, none, false⟩,
    ⟨"mode", 1, ⟨.bits .integer .u16 3 2, order, true, 0⟩, true, none, false⟩,
    ⟨"level", 2, ⟨.bits .integer .u16 9 2, order, true, 0⟩, true, none, false⟩,
    ⟨"name", 3, ⟨.text .utf8 (.sized (.fixed 4)), order, true, 4⟩, true, none, false⟩]
  byteOrder := order
  hasFixedSize := true
  minSize := 8

theorem Layout.describe_gauge (order : ByteOrder) :
    (Layout.gauge.inOrder order).describe = .ok (.gauge order) := by
  cases order <;> cbv

/-- The schema of a number, two bit fields and a text in an order. -/
def Schema.gauge (order : ByteOrder) : Schema where
  name := "Gauge"
  descriptor := .gauge order
  plan := {
    root := {
      name := "Gauge"
      fields := [
        ⟨"serial", .scalar (.integer .u16) (order.reverses 2) .native, none, none, false⟩,
        ⟨"mode", .bits .u16 3 2 (order.reverses 2) .native, none, none, false⟩,
        ⟨"level", .bits .u16 9 2 (order.reverses 2) .native, none, none, false⟩,
        ⟨"name", .text .utf8 (.sized (.fixed 4)), none, none, false⟩]
      skipped := [] }
    hasFixedSize := true
    minSize := 8 }

theorem Schema.ofLayout_gauge (order : ByteOrder) :
    ofLayout (Layout.gauge.inOrder order) = .ok (.gauge order) := by
  rw [ofLayout, Layout.describe_gauge]
  rfl

/-- A number, bits and a text that does not fill its slot. -/
def Value.gauge : Value :=
  .record [("level", .integer .u16 300), ("mode", .integer .u16 5), ("name", .text "ab"),
    ("serial", .integer .u16 0x1234)]

/-- The number and the container are turned around, and the text is not. -/
theorem Schema.gauge_toBytes : Layout.gauge.IsNeutral ∧ ¬ Layout.gauge.UsesCodec ∧
    ∃ spans, (Schema.gauge .little).descriptor.ComesTo .gauge spans ∧
      (Schema.gauge .little).toBytes .gauge = .ok (spans.flatMap (Span.bytes .little)) ∧
      (Schema.gauge .big).toBytes .gauge = .ok (spans.flatMap (Span.bytes .big)) ∧
      spans.flatMap (Span.bytes .little) = [0x34, 0x12, 0x65, 0x09, 0x61, 0x62, 0, 0] ∧
      spans.flatMap (Span.bytes .big) = [0x12, 0x34, 0x09, 0x65, 0x61, 0x62, 0, 0] := by
  have hneutral : Layout.gauge.IsNeutral := by decide
  have hcodec : ¬ Layout.gauge.UsesCodec := by decide
  refine ⟨hneutral, hcodec, ?_⟩
  obtain ⟨error, hlittle, -⟩ | ⟨little, big, hlittle, hbig, hall⟩ :=
    toBytes_inOrder hneutral hcodec
  · rw [ofLayout_gauge] at hlittle
    cases hlittle
  · rw [ofLayout_gauge] at hlittle hbig
    cases hlittle
    cases hbig
    have hbytes : (Schema.gauge .little).toBytes .gauge =
        .ok [0x34, 0x12, 0x65, 0x09, 0x61, 0x62, 0, 0] := rfl
    have hbytes' : (Schema.gauge .big).toBytes .gauge =
        .ok [0x12, 0x34, 0x09, 0x65, 0x61, 0x62, 0, 0] := rfl
    obtain ⟨error, herror, -⟩ | ⟨spans, hspans, hwritten, hwritten'⟩ := hall .gauge
    · rw [hbytes] at herror
      cases herror
    · exact ⟨spans, hspans, hwritten, hwritten', Except.ok.inj (hwritten.symm.trans hbytes),
        Except.ok.inj (hwritten'.symm.trans hbytes')⟩

end WireFormat
