import WireFormat.Proofs.Format.Encode
import WireFormat.Proofs.Stream.Making

/-!
# Every move can be made

What has moves can be written: the operation of a descriptor makes the moves that
`Descriptor.Writes` has for a value, wherever they are due.  This is the converse of
`Descriptor.isWritten`.

* `LengthFeed.measured_of_count` — what a length counts is what its field measures;
* `Descriptor.isPerformed` — a value that has moves is written by making them.
-/

namespace WireFormat

open Writer (Makes makes_flushBits makes_pack makes_writeBytes makes_writeZeros)

variable {value : Value} {moves : List Move}

/-! ## Steps of a writer -/

theorem WriteM.makes_ofData {α : Type} {x : Except DataError α} {a : α} (h : x = .ok a) :
    Makes (WriteM.ofData x) [] a := by
  subst h
  exact .pure a

/-! ## Lengths -/

namespace LengthFeed

variable {feed : LengthFeed} {members : Members} {length : Nat}

theorem reach_of_follow? {depth : Nat} {path : List String} {inner : Members}
    (h : (Value.record members).follow? path = some (.record inner)) :
    reach depth members path = .ok inner := by
  induction path generalizing depth members with
  | nil =>
    cases h
    rfl
  | cons name path ih =>
    obtain ⟨found, hfind, hrest⟩ := Option.bind_eq_some_iff.1 h
    change members.find? name = some found at hfind
    rw [reach, hfind]
    cases found with
    | record members => exact ih hrest
    | _ =>
      -- Only a record has members to go on to, and only the end of the path need not go on.
      cases path with
      | nil => cases hrest
      | cons => cases hrest

/-- What a length counts is what its field measures. -/
theorem measured_of_count (h : feed.count (.record members) = some length) :
    feed.measured members = .ok length := by
  obtain ⟨target, hfollow, hcount⟩ := Option.bind_eq_some_iff.1 h
  have hpath : feed.path ≠ [] := by
    intro hnil
    rw [hnil] at hfollow
    cases hfollow
    cases hmeasure : feed.measure <;> rw [hmeasure] at hcount <;> cases hcount
  rw [← List.dropLast_append_getLast hpath, Value.follow?_append] at hfollow
  obtain ⟨last, hlast, htarget⟩ := Option.bind_eq_some_iff.1 hfollow
  obtain ⟨found, hfind, hfound⟩ := Option.bind_eq_some_iff.1 htarget
  obtain rfl : found = target := Option.some.inj hfound
  obtain ⟨inner, hinner, hmember⟩ := Option.bind_eq_some_iff.1 hfind
  obtain rfl : last = .record inner := by
    cases last <;> cases hinner
    rfl
  rw [measured, List.getLast?_eq_some_getLast hpath]
  dsimp only
  refine bind_eq_ok_iff.2 ⟨inner, reach_of_follow? hlast, ?_⟩
  rw [hmember]
  dsimp only
  rw [Measure.count_eq_some_iff.1 hcount]
  rfl

end LengthFeed

/-! ## Texts and lists -/

theorem Operation.makes_encodeText_sized {encoding : Encoding} {policy : SizePolicy LengthSource}
    {text : String} {bytes : List UInt8} {slots : Nat} (hencode : encoding.encode text = .ok bytes)
    (hslots : textSlots encoding policy bytes.length = .ok slots) (hle : bytes.length ≤ slots) :
    Makes (encodeText encoding (.sized policy) (.text text))
      [.bytes bytes, .bytes (List.replicate (slots - bytes.length) 0)] () := by
  rw [encodeText, pure_bind]
  refine (WriteM.makes_ofData hencode).bind ((WriteM.makes_ofData hslots).bind ?_)
  rw [if_neg (Nat.not_lt.2 hle)]
  exact (makes_writeBytes bytes).bind (makes_writeZeros _)

/-- A text that has moves is written by making them. -/
theorem TextSize.makes_encodeText {encoding : Encoding} {size : TextSize String}
    {f : String → LengthSource} {text : String} {bytes : List UInt8}
    (hencode : encoding.encode text = .ok bytes) (h : size.Writes encoding bytes moves) :
    Makes (Operation.encodeText encoding (size.map f) (.text text)) moves () := by
  cases h with
  | nullTerminated nul =>
    rw [Operation.encodeText, pure_bind]
    refine (WriteM.makes_ofData hencode).bind ?_
    change Makes (if bytes.contains 0 then _ else _) _ _
    rw [if_neg (by simpa using nul)]
    exact (makes_writeBytes bytes).bind (makes_writeZeros 1)
  | keyed key =>
    have hslots : Operation.textSlots encoding (.keyed (f key)) bytes.length = .ok bytes.length :=
      rfl
    have hmakes := Operation.makes_encodeText_sized hencode hslots (Nat.le_refl _)
    rwa [Nat.sub_self] at hmakes
  | fixed le terminable =>
    refine Operation.makes_encodeText_sized hencode (if_neg ?_) le
    rintro ⟨hlt, hother⟩
    rw [terminable hlt] at hother
    cases hother
  | padded key le => exact Operation.makes_encodeText_sized hencode rfl le

theorem Operation.makes_forItems {action : Nat → Value → WriteM Unit} {items : List Value}
    {parts : List (List Move)}
    (h : List.Forall₂ (fun item part ↦ ∀ position, Makes (action position item) part ()) items parts)
    (position : Nat) : Makes (forItems action position items) parts.flatten () := by
  induction h generalizing position with
  | nil => exact .pure ()
  | cons hitem _ ih => exact (hitem position).bind (ih (position + 1))

/-! ## Scalars and lengths -/

theorem Flavor.makes_ofScalar {flavor : Flavor} {kind : ScalarKind} {byteOrder : ByteOrder}
    (h : flavor.WritesScalar kind byteOrder value moves) (traversal : Traversal Members) :
    Makes ((Operation.ofScalar kind byteOrder flavor).encode traversal value) moves () := by
  obtain ⟨raw, hraw, rfl⟩ := h
  rw [Operation.ofScalar, Operation.encode]
  exact (WriteM.makes_ofData hraw).bind (makes_writeBytes _)

/-- A length is written into the field that carries it by making its moves. -/
theorem Descriptor.makes_encodeLength {descriptor : Descriptor} {length : Nat}
    (h : descriptor.kind.WritesLength descriptor.byteOrder length moves) (chain : List Enclosure) :
    Makes ((descriptor.operation chain).encodeLength length) moves () := by
  obtain ⟨kind, byteOrder, hasFixedSize, minSize⟩ := descriptor
  cases kind with
  | scalar kind =>
    obtain ⟨raw, hraw, rfl⟩ := h
    change Makes (Operation.encodeLength length (.scalar ..)) _ _
    rw [Operation.encodeLength]
    exact (WriteM.makes_ofData hraw).bind (makes_writeBytes _)
  | bits content repr width container =>
    cases content with
    | integer =>
      obtain ⟨bits, hbits, rfl⟩ := h
      have hwidth : width ≠ 0 := by
        rintro rfl
        exact bitsOf_ne_ok_of_zero hbits
      change Makes (Operation.encodeLength length (.bits ..)) _ _
      rw [Operation.encodeLength]
      exact (WriteM.makes_ofData hbits).bind (makes_pack hwidth)
    | _ => cases h
  | _ => cases h

/-! ## Fields -/

/-- What has moves under a descriptor is written by making them. -/
def Descriptor.IsPerformed (descriptor : Descriptor) : Prop :=
  ∀ (chain : List Enclosure) (traversal : Traversal Members) (value : Value) (moves : List Move),
    descriptor.Writes value moves →
      Makes ((descriptor.operation chain).encode traversal value) moves ()

namespace FieldDescriptor

variable {typeName : String} {fields rest : List FieldDescriptor} {members : Members}

theorem makes_padding (padAfter : Bool) :
    Makes (if padAfter then Writer.flushBits else pure ()) (padding padAfter) () := by
  cases padAfter with
  | false => exact .pure ()
  | true => exact makes_flushBits

/-- The fields of a record are written by making the moves of each. -/
theorem makes_encodeAll (hfields : ∀ field ∈ rest, field.serialize → field.descriptor.IsPerformed)
    (chain : List Enclosure) (traversal : Traversal Members)
    (h : WritesAll (demandsAll typeName fields fields) members rest moves) :
    Makes (FieldPlan.encodeAll traversal members
      ((rest.filter FieldDescriptor.serialize).map (plan typeName fields chain))) moves () := by
  induction rest generalizing moves with
  | nil =>
    obtain rfl : moves = [] := h
    exact .pure ()
  | cons field rest ih =>
    obtain ⟨hfield, hrest⟩ := List.forall_mem_cons.1 hfields
    cases hserialize : field.serialize with
    | false =>
      rw [List.filter_cons_of_neg (by simp [hserialize])]
      exact ih hrest ((writesAll_cons_of_not_serialize hserialize).1 h)
    | true =>
      obtain ⟨own, more, hown, hmore, rfl⟩ := (writesAll_cons_of_serialize hserialize).1 h
      rw [List.filter_cons_of_pos hserialize, List.map_cons, plan, FieldPlan.encodeAll]
      refine Makes.bind (Makes.adaptExcept (a := ()) ?_ _) (ih hrest hmore)
      cases hlength : field.lengthOf with
      | none =>
        rw [hlength] at hown
        obtain ⟨value, hfind, hwrites⟩ := hown
        rw [Option.bind_none]
        dsimp only
        rw [hfind]
        exact (hfield hserialize _ _ value own hwrites).bind (makes_padding field.padAfter)
      | some key =>
        rw [hlength] at hown
        obtain ⟨feed, length, hfeed, hcount, hwrites⟩ := hown
        rw [Option.bind_some, hfeed]
        dsimp only
        rw [LengthFeed.measured_of_count hcount]
        exact (Descriptor.makes_encodeLength hwrites _).bind (makes_padding field.padAfter)

end FieldDescriptor

/-! ## Descriptors -/

/-- A value that has moves is written by making them. -/
theorem Descriptor.isPerformed {descriptor : Descriptor}
    (hcoherent : descriptor.Everywhere Coherent) : descriptor.IsPerformed := by
  induction descriptor using Descriptor.induction with
  | step descriptor ihelement ihfields =>
    obtain ⟨kind, byteOrder, hasFixedSize, minSize⟩ := descriptor
    cases kind with
    | scalar kind | boolean repr | enum repr type =>
      exact fun chain traversal value moves h ↦ Flavor.makes_ofScalar h traversal
    | bits content repr width container =>
      intro chain traversal value moves h
      change Makes (Operation.encode traversal value (.bits ..)) _ _
      change if width = 0 then _ else _ at h
      rw [Operation.encode]
      split at h
      · next hwidth =>
        rw [if_pos hwidth, h]
        exact makes_flushBits
      · next hwidth =>
        obtain ⟨bits, hbits, rfl⟩ := h
        rw [if_neg hwidth]
        exact (WriteM.makes_ofData hbits).bind (makes_pack hwidth)
    | text encoding size =>
      rintro chain traversal value moves ⟨text, bytes, rfl, hencode, hwrites⟩
      exact TextSize.makes_encodeText hencode hwrites
    | list element size =>
      rintro chain traversal value moves ⟨items, filled, parts, rfl, hfilled, hparts, rfl⟩
      change Makes (Operation.encode traversal _ (.list ..)) _ _
      rw [Operation.encode_list (by rwa [SizePolicy.filled?_map])]
      refine Operation.makes_forItems (hparts.imp fun item part hwrites position ↦ ?_) 0
      exact (ihelement element rfl (hcoherent.of_element rfl) _ _ _ _ hwrites).adaptExcept _
    | record name fields =>
      rintro chain traversal value moves ⟨members, inner, rfl, hwrites, rfl⟩
      rw [operation_record hcoherent.here.1.names, Operation.encode]
      have hmembers := WriteM.makes_ofData
        (rfl : (Value.record members).members = .ok members)
      have hinner := FieldDescriptor.makes_encodeAll (fun field hmem _ ↦
        ihfields field hmem (hcoherent.of_field hmem)) chain (traversal.push name members) hwrites
      refine hmembers.bind ?_
      rw [RecordPlan.encode]
      exact makes_flushBits.bind (hinner.bind makes_flushBits)
    | custom codec context => exact fun _ _ _ _ h ↦ h.elim

end WireFormat
