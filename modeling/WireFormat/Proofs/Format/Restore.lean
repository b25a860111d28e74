import WireFormat.Proofs.Format.Canonical
import WireFormat.Proofs.Layout.Elements
import WireFormat.Proofs.Size.Decode
import WireFormat.Proofs.Stream.Mirror
import WireFormat.Proofs.Text.Canonical
import WireFormat.Proofs.Value.Readable

/-!
# What is read can be written

The bytes that a value is read from need not be those that it is written as: there may be anything
in bits, slots and texts that are dropped.  But whatever is read is in the range of what can be
written, and the containers that it is written to are those that it was read from.

* `Operation.Rewritable` — lengths have bits to be written into, and defaults can be written;
* `Descriptor.Restored` — a value has been read that can be written and is read back as itself;
* `Descriptor.isRestored_list` — what is restored if the elements are.
-/

namespace WireFormat

variable {reader middle next : Reader} {traversal : Traversal Members} {value : Value}
  {chain : List Enclosure} {byteOrder : ByteOrder} {hasFixedSize : Bool} {minSize : UInt64}

/-! ## Operations that can be done again -/

/-- The operations inside another, itself included. -/
inductive Operation.Contains : Operation → Operation → Prop where
  | here (operation : Operation) : Contains operation operation
  | element {element inner : Operation} {size : SizePolicy LengthSource} {default? : Option Value}
      (inside : element.Contains inner) : Contains (.list element size default?) inner
  | field {plan : RecordPlan} {field : FieldPlan} {inner : Operation} (mem : field ∈ plan.fields)
      (inside : field.operation.Contains inner) : Contains (.record plan) inner

/-- Every field that carries a length has bits to write it into, and the default in the free slots
of a list can be written by itself. -/
structure Operation.Rewritable (operation : Operation) : Prop where
  wide : ∀ plan, operation.Contains (.record plan) → ∀ field ∈ plan.fields, field.lengthOf.isSome →
    ∀ repr container swap flavor, field.operation ≠ .bits repr 0 container swap flavor
  filled : ∀ element source slots default?,
    operation.Contains (.list element (.padded source slots) default?) →
      ∀ value ∈ default?, ∃ writer, element.encode {} value {} = .ok () writer

namespace Operation.Rewritable

theorem of_element {element : Operation} {size : SizePolicy LengthSource} {default? : Option Value}
    (h : (Operation.list element size default?).Rewritable) : element.Rewritable :=
  ⟨fun plan hinside ↦ h.wide plan (.element hinside),
    fun inner source slots default? hinside ↦
      h.filled inner source slots default? (.element hinside)⟩

theorem of_field {plan : RecordPlan} {field : FieldPlan} (h : (Operation.record plan).Rewritable)
    (hmem : field ∈ plan.fields) : field.operation.Rewritable :=
  ⟨fun inner hinside ↦ h.wide inner (.field hmem hinside),
    fun inner source slots default? hinside ↦
      h.filled inner source slots default? (.field hmem hinside)⟩

end Operation.Rewritable

/-! ## Values that have been read -/

namespace Descriptor

/-- A value that a reader has gone over is read back as itself, and a writer can make its moves
wherever the reader has gone. -/
structure Restored (descriptor : Descriptor) (reader : Reader) (value : Value) (next : Reader)
    (moves : List Move) : Prop where
  normal : descriptor.normalize value = value
  nulFree : descriptor.NulFree value
  writes : descriptor.Writes value moves
  leads : reader.Leads moves next

/-- Whatever is read can be written and is read back as itself, and the lengths that it has been
read with are its own. -/
def IsRestored (descriptor : Descriptor) : Prop :=
  ∀ (chain : List Enclosure) (traversal : Traversal Members) (reader : Reader) (value : Value)
    (next : Reader), descriptor.Lent chain → (descriptor.operation chain).Rewritable →
      (descriptor.operation chain).decode traversal reader = .ok value next →
        descriptor.Provided value chain traversal ∧
          ∃ moves, descriptor.Restored reader value next moves

theorem provided_of_demands_eq_nil {descriptor : Descriptor} (h : descriptor.demands = []) :
    descriptor.Provided value chain traversal := by
  intro demand hmem
  rw [h] at hmem
  cases hmem

end Descriptor

/-! ## Lengths -/

theorem Traversal.sourceLength_eq_ok_iff {source : LengthSource} {length : Nat} :
    traversal.sourceLength source = .ok length ↔
      traversal.length? source.up source.key = some (length : Int) := by
  rw [sourceLength]
  cases traversal.length? source.up source.key with
  | none => simp
  | some number =>
    dsimp only
    split
    · next hle =>
      rw [Except.ok.injEq, Option.some.injEq]
      omega
    · next hlt =>
      simp only [reduceCtorEq, Option.some.injEq, false_iff]
      omega

/-- The length that a list or text has been read with is its own. -/
theorem Descriptor.provided_of_sourceLength {descriptor : Descriptor} {policy : SizePolicy String}
    {measure : Measure} {length : Nat} (hdemands : descriptor.demands = policy.demands measure)
    (hcount : measure.count value = some length)
    (hlength : ∀ key, policy.key? = some key →
      traversal.sourceLength (.from chain key) = .ok length) :
    descriptor.Provided value chain traversal := by
  rintro ⟨own, key, found⟩ hmem inner enclosure outer rfl hinside hcarries
  rw [hdemands] at hmem
  obtain ⟨hown, hkey, hmeasure⟩ := mem_policy_demands_iff.1 hmem
  obtain rfl : own = [] := hown
  obtain rfl : found = measure := hmeasure
  have hnone : ∀ other ∈ inner, other.carriers key = [] := hinside
  have hsource := hlength key hkey
  rw [LengthSource.from_eq hcarries hnone, Traversal.sourceLength_eq_ok_iff] at hsource
  exact ⟨length, hcount, hsource⟩

/-- How many elements or bytes are kept of those that are read. -/
theorem Traversal.extent_map_eq_ok {policy : SizePolicy String} {f : String → LengthSource}
    {kept count : Nat} (h : traversal.extent (policy.map f) = .ok (kept, count)) :
    (∀ key, policy.key? = some key → traversal.sourceLength (f key) = .ok kept) ∧
      (policy = .fixed count ∧ kept = count ∨ (∃ key, policy = .keyed key) ∧ kept = count ∨
        ∃ key, policy = .padded key count ∧ kept ≤ count) := by
  cases policy with
  | fixed slots =>
    cases h
    exact ⟨nofun, .inl ⟨rfl, rfl⟩⟩
  | keyed key =>
    obtain ⟨length, hlength, h⟩ := bind_eq_ok_iff.1 h
    cases h
    refine ⟨?_, .inr (.inl ⟨⟨key, rfl⟩, rfl⟩)⟩
    rintro _ ⟨⟩
    exact hlength
  | padded key slots =>
    obtain ⟨length, hlength, h⟩ := bind_eq_ok_iff.1 h
    split at h
    · cases h
    · next hle =>
      cases h
      refine ⟨?_, .inr (.inr ⟨key, rfl, Nat.not_lt.1 hle⟩)⟩
      rintro _ ⟨⟩
      exact hlength

/-- The items that are kept fill the list, with its default in place of those that are dropped. -/
theorem Traversal.fills_of_extent {policy : SizePolicy String} {f : String → LengthSource}
    {count : Nat} {items : List Value}
    (h : traversal.extent (policy.map f) = .ok (items.length, count)) (default : Value) :
    policy.extended (some default) items = items ∧
      policy.filled? (some default) items =
        some (items ++ List.replicate (count - items.length) default) := by
  have hle : items.length ≤ count := (extent_eq_ok h).2.1
  obtain ⟨rfl, hcount⟩ | ⟨⟨key, rfl⟩, rfl⟩ | ⟨key, rfl, -⟩ := (extent_map_eq_ok h).2
  · refine ⟨?_, (SizePolicy.filled?_eq_some_iff rfl).2 ⟨hle, fun _ ↦ rfl, rfl⟩⟩
    rw [SizePolicy.extended, hcount, Nat.sub_self]
    exact List.append_nil items
  · rw [Nat.sub_self]
    exact ⟨rfl, congrArg some (List.append_nil items).symm⟩
  · exact ⟨rfl, (SizePolicy.filled?_eq_some_iff rfl).2 ⟨hle, fun _ ↦ rfl, rfl⟩⟩

/-! ## Scalars and bit fields -/

namespace Descriptor

theorem isRestored_scalar {kind : DescriptorKind} {repr : ScalarKind} {flavor : Flavor}
    (hrepr : flavor = .native ∨ ∃ own, repr = .integer own)
    (hoperation : ∀ chain, operation chain ⟨kind, byteOrder, hasFixedSize, minSize⟩ =
      .ofScalar repr byteOrder flavor)
    (hdemands : kind.demands = []) (hnormal : ∀ value, kind.normalize value = value)
    (hnul : ∀ value, kind.NulFree value)
    (hwrites : ∀ value moves, flavor.WritesScalar repr byteOrder value moves →
      kind.Writes byteOrder value moves) :
    IsRestored ⟨kind, byteOrder, hasFixedSize, minSize⟩ := by
  intro chain traversal reader value next _ _ h
  rw [hoperation, Operation.ofScalar, Operation.decode] at h
  obtain ⟨raw, _, hraw, hdata⟩ := run_bind_eq_ok_iff.1 h
  obtain ⟨hdecode, rfl⟩ := ReadM.run_ofData_eq_ok_iff.1 hdata
  obtain ⟨raw', hencode⟩ := Flavor.exists_encode_of_decode hrepr hdecode
  exact ⟨provided_of_demands_eq_nil hdemands, _, hnormal value, hnul value,
    hwrites value _ ⟨raw', hencode, rfl⟩,
    .of_active_eq_none (Reader.active_eq_none_of_readRaw hraw) _⟩

theorem isRestored_bits {content : BitContent} {repr : IntegerKind} {width container : Nat}
    (hwidth : width ≤ repr.bits) :
    IsRestored ⟨.bits content repr width container, byteOrder, hasFixedSize, minSize⟩ := by
  intro chain traversal reader value next _ _ h
  refine ⟨provided_of_demands_eq_nil rfl, ?_⟩
  change Operation.decode traversal (.bits ..) reader = _ at h
  rw [Operation.decode] at h
  split at h
  · next hzero =>
    obtain ⟨_, _, hreset, h⟩ := run_bind_eq_ok_iff.1 h
    cases hreset
    obtain ⟨rfl, rfl⟩ := run_pure_eq_ok_iff.1 h
    refine ⟨[.bytes []], ?_, trivial, ?_, .of_active_eq_none rfl []⟩
    · change (if width = 0 then _ else _) = _
      rw [if_pos hzero]
    · change if width = 0 then _ else _
      rw [if_pos hzero]
  · next hzero =>
    obtain ⟨bits, _, hunpack, hdata⟩ := run_bind_eq_ok_iff.1 h
    obtain ⟨hdecode, rfl⟩ := ReadM.run_ofData_eq_ok_iff.1 hdata
    obtain ⟨bits', hencode⟩ := Flavor.exists_encodeBits_of_decodeBits hzero hwidth
      (Reader.lt_of_unpack hzero hunpack) hdecode
    have hlt := (Flavor.decodeBits_encodeBits hwidth hencode).2.1
    refine ⟨_, ?_, trivial, ?_, Reader.leads_of_unpack hzero hunpack hlt⟩
    · change (if width = 0 then _ else _) = _
      rw [if_neg hzero]
    · change if width = 0 then _ else _
      rw [if_neg hzero]
      exact ⟨bits', hencode, rfl⟩

/-! ## Texts -/

/-- The bytes of a text whose length was read before, and what is dropped after them. -/
theorem leads_of_decodeTextBytes {encoding : Encoding} {policy : SizePolicy String}
    {f : String → LengthSource} {bytes : List UInt8} (hkey : policy.key?.isSome)
    (h : Operation.decodeTextBytes traversal encoding (.sized (policy.map f)) reader =
      .ok bytes next) :
    (∃ count, traversal.extent (policy.map f) = .ok (bytes.length, count)) ∧
      ∀ more, reader.Leads [.bytes bytes, .bytes more] next := by
  cases policy with
  | fixed slots => cases hkey
  | keyed key | padded key slots =>
    obtain ⟨⟨kept, count⟩, _, hdata, h⟩ := run_bind_eq_ok_iff.1 h
    obtain ⟨hextent, rfl⟩ := ReadM.run_ofData_eq_ok_iff.1 hdata
    obtain ⟨all, middle, hread, h⟩ := run_bind_eq_ok_iff.1 h
    obtain ⟨_, _, hskip, h⟩ := run_bind_eq_ok_iff.1 h
    obtain ⟨rfl, rfl⟩ := run_pure_eq_ok_iff.1 h
    obtain ⟨rfl, hactive⟩ := Reader.active_eq_none_of_readBytes hread
    exact ⟨⟨count, hextent⟩, fun more ↦ (Reader.Leads.of_active_eq_none hactive all).trans
      (.of_active_eq_none (Reader.active_eq_none_of_skip hskip) more)⟩

/-- The bytes of a text that has been read can be written as those of a text. -/
theorem exists_writes_of_decodeTextBytes {encoding : Encoding} {size : TextSize String}
    {f : String → LengthSource} {bytes : List UInt8}
    (h : Operation.decodeTextBytes traversal encoding (size.map f) reader = .ok bytes next) :
    (∀ policy key, size = .sized policy → policy.key? = some key →
      traversal.sourceLength (f key) = .ok bytes.length) ∧
      (∀ slots, size = .sized (.fixed slots) → encoding.isNullTerminable → 0 ∉ bytes) ∧
      ∃ moves, size.Writes encoding bytes moves ∧ reader.Leads moves next := by
  cases size with
  | nullTerminated =>
    obtain ⟨hnul, hactive⟩ := Reader.active_eq_none_of_readUntilNul h
    exact ⟨nofun, nofun, _, .nullTerminated hnul,
      (Reader.Leads.of_active_eq_none hactive bytes).trans (.of_active_eq_none hactive [0])⟩
  | sized policy =>
    cases policy with
    | fixed slots =>
      obtain ⟨all, _, hread, h⟩ := run_bind_eq_ok_iff.1 h
      obtain ⟨rfl, rfl⟩ := run_pure_eq_ok_iff.1 h
      obtain ⟨rfl, hactive⟩ := Reader.active_eq_none_of_readBytes hread
      refine ⟨?_, ?_, ?_⟩
      · rintro _ key ⟨⟩ ⟨⟩
      · rintro _ ⟨⟩ hterminable
        rw [if_pos hterminable]
        intro hmem
        simpa using List.mem_takeWhile_imp hmem
      · refine ⟨_, .fixed ?_ ?_, (Reader.Leads.of_active_eq_none hactive _).trans
          (.of_active_eq_none hactive _)⟩
        · split
          · exact (List.takeWhile_prefix _).length_le
          · exact Nat.le_refl _
        · intro hlt
          by_contra hterminable
          rw [if_neg hterminable] at hlt
          exact Nat.lt_irrefl _ hlt
    | keyed key =>
      obtain ⟨⟨count, hextent⟩, hleads⟩ := leads_of_decodeTextBytes rfl h
      refine ⟨?_, nofun, _, .keyed key, hleads []⟩
      rintro _ own ⟨⟩ hown
      exact (Traversal.extent_map_eq_ok hextent).1 own hown
    | padded key slots =>
      obtain ⟨⟨count, hextent⟩, hleads⟩ := leads_of_decodeTextBytes rfl h
      obtain ⟨hlength, ⟨⟨⟩, -⟩ | ⟨⟨_, ⟨⟩⟩, -⟩ | ⟨_, ⟨⟩, hle⟩⟩ := Traversal.extent_map_eq_ok hextent
      refine ⟨?_, nofun, _, .padded key hle, hleads _⟩
      rintro _ own ⟨⟩ hown
      exact hlength own hown

theorem isRestored_text {encoding : Encoding} {size : TextSize String} :
    IsRestored ⟨.text encoding size, byteOrder, hasFixedSize, minSize⟩ := by
  intro chain traversal reader value next _ _ h
  change Operation.decode traversal (.text ..) reader = _ at h
  rw [Operation.decode] at h
  obtain ⟨bytes, _, hbytes, h⟩ := run_bind_eq_ok_iff.1 h
  obtain ⟨text, _, hdata, h⟩ := run_bind_eq_ok_iff.1 h
  obtain ⟨hdecode, rfl⟩ := ReadM.run_ofData_eq_ok_iff.1 hdata
  obtain ⟨rfl, rfl⟩ := run_pure_eq_ok_iff.1 h
  obtain ⟨hlength, hzero, moves, hwrites, hleads⟩ := exists_writes_of_decodeTextBytes hbytes
  have hencode := Encoding.encode_decode hdecode
  refine ⟨?_, moves, rfl, ?_, ⟨text, bytes, rfl, hencode, hwrites⟩, hleads⟩
  · cases size with
    | nullTerminated => exact provided_of_demands_eq_nil rfl
    | sized policy =>
      refine provided_of_sourceLength rfl ?_ (hlength policy · rfl)
      rw [Measure.count, hencode]
      rfl
  · cases size with
    | nullTerminated => trivial
    | sized policy =>
      cases policy with
      | fixed slots =>
        exact fun hterminable ↦
          Encoding.nul_notMem_of_encode hterminable hencode (hzero slots rfl hterminable)
      | keyed | padded => trivial

/-! ## Lists -/

/-- What ends the container is written as moves that start and end with bytes. -/
theorem seals_of_writes {descriptor : Descriptor} (hcoherent : descriptor.Everywhere Coherent)
    (hends : descriptor.endsContainer) {moves : List Move} (h : descriptor.Writes value moves) :
    Seals moves := by
  induction descriptor using Descriptor.induction generalizing value moves with
  | step descriptor ihelement _ =>
    obtain ⟨kind, byteOrder, hasFixedSize, minSize⟩ := descriptor
    cases kind with
    | scalar | boolean | enum =>
      obtain ⟨raw, -, rfl⟩ := h
      exact .singleton _
    | bits content repr width container =>
      change if width = 0 then _ else _ at h
      rw [if_pos (beq_iff_eq.1 hends)] at h
      subst h
      exact .singleton []
    | text encoding size =>
      obtain ⟨text, bytes, -, -, hwrites⟩ := h
      cases hwrites <;> exact (Seals.singleton bytes).append (.singleton _)
    | list element size =>
      obtain ⟨items, filled, parts, -, hfilled, hparts, rfl⟩ := h
      obtain ⟨hslots, helement⟩ := Bool.and_eq_true_iff.1 hends
      obtain ⟨slots, hslots⟩ := Option.isSome_iff_exists.1 hslots
      have hlength : parts.length = slots :=
        hparts.length_eq.symm.trans (SizePolicy.filled?_eq_some hslots hfilled).2.2
      have hseals : List.Forall₂ (fun part item ↦ Seals part ∧ element.Writes item part) parts
          filled := hparts.flip.imp fun part item hwrites ↦
        ⟨ihelement element rfl (hcoherent.of_element rfl) helement hwrites, hwrites⟩
      refine .flatten ?_ ((List.forall₂_and_left ..).1 hseals).1
      rintro rfl
      subst hlength
      exact hcoherent.here.2 hslots
    | record name fields =>
      obtain ⟨members, inner, -, -, rfl⟩ := h
      exact ⟨⟨[], inner ++ [.bytes []], rfl⟩, .bytes [] :: inner, [], rfl⟩
    | custom codec context => exact h.elim

/-- Only a codec can leave something without a default. -/
theorem isSome_default? {descriptor : Descriptor}
    (hcodec : descriptor.Everywhere fun inner ↦ inner.isCodec = false) :
    descriptor.default?.isSome := by
  induction descriptor using Descriptor.induction with
  | step descriptor _ ihfields =>
    obtain ⟨kind, byteOrder, hasFixedSize, minSize⟩ := descriptor
    cases kind with
    | bits content repr width container => cases content <;> rfl
    | record name fields =>
      have hall : ∀ rest : List FieldDescriptor, (∀ field ∈ rest, field ∈ fields) →
          (FieldDescriptor.defaults? rest).isSome := by
        intro rest hrest
        induction rest with
        | nil => rfl
        | cons field rest ih =>
          obtain ⟨hmem, hrest⟩ := List.forall_mem_cons.1 hrest
          obtain ⟨value, hvalue⟩ :=
            Option.isSome_iff_exists.1 (ihfields field hmem (hcodec.of_field hmem))
          obtain ⟨pairs, hpairs⟩ := Option.isSome_iff_exists.1 (ih hrest)
          obtain ⟨own, order, descriptor, serialize, lengthOf, padAfter⟩ := field
          change descriptor.default? = some value at hvalue
          rw [FieldDescriptor.defaults?, hvalue, hpairs]
          rfl
      change ((FieldDescriptor.defaults? fields).map Value.ofMembers).isSome
      rw [Option.isSome_map]
      exact hall fields fun _ ↦ id
    | custom codec context => cases hcodec.here
    | _ => rfl

theorem forall₂_replicate {α β : Type} {R : α → β → Prop} {a : α} {b : β} {count : Nat}
    (h : count ≠ 0 → R a b) :
    List.Forall₂ R (List.replicate count a) (List.replicate count b) := by
  induction count with
  | zero => exact .nil
  | succ count ih =>
    have hab := h (Nat.succ_ne_zero count)
    exact .cons hab (ih fun _ ↦ hab)

/-- The elements that are kept are restored.  Those that are dropped are written as another part in
their place. -/
theorem exists_restored_of_decodeItems {element : Descriptor} {action : Nat → ReadM Value}
    {part : List Move} {kept position count : Nat} {items values : List Value}
    (haction : ∀ position reader value next, action position reader = .ok value next →
      ∃ moves, element.Restored reader value next moves)
    (hfree : kept < position + count → ∀ reader value next moves,
      element.Restored reader value next moves → reader.Leads part next)
    (h : Operation.decodeItems action kept position items count reader = .ok values next) :
    ∃ found parts, values = items.reverse ++ found ∧ found.length = min count (kept - position) ∧
      (∀ item ∈ found, element.normalize item = item ∧ element.NulFree item) ∧
      List.Forall₂ element.Writes found parts ∧
      reader.Leads (parts.flatten ++ (List.replicate (count - (kept - position)) part).flatten)
        next := by
  induction count generalizing position items reader with
  | zero =>
    obtain ⟨rfl, rfl⟩ := run_pure_eq_ok_iff.1 h
    exact ⟨[], [], by simp, by simp, by simp, .nil, by simpa using .refl reader⟩
  | succ count ih =>
    obtain ⟨item, middle, hitem, h⟩ := run_bind_eq_ok_iff.1 h
    obtain ⟨moves, hrestored⟩ := haction _ _ _ _ hitem
    obtain ⟨found, parts, hvalues, hlength, hfound, hparts, hleads⟩ :=
      ih (fun hlt ↦ hfree (by omega)) h
    by_cases hkept : position < kept
    · rw [if_pos hkept] at hvalues
      refine ⟨item :: found, moves :: parts, by simp [hvalues], ?_,
        List.forall_mem_cons.2 ⟨⟨hrestored.normal, hrestored.nulFree⟩, hfound⟩,
        .cons hrestored.writes hparts, ?_⟩
      · rw [List.length_cons]
        omega
      · rw [List.flatten_cons, List.append_assoc,
          show count + 1 - (kept - position) = count - (kept - (position + 1)) by omega]
        exact hrestored.leads.trans hleads
    · rw [if_neg hkept] at hvalues
      obtain rfl : found = [] := List.eq_nil_of_length_eq_zero (by omega)
      cases hparts
      refine ⟨[], [], hvalues, by simp; omega, by simp, .nil, ?_⟩
      rw [show count + 1 - (kept - position) = count - (kept - (position + 1)) + 1 by omega,
        List.replicate_succ]
      exact (hfree (by omega) _ _ _ _ hrestored).trans hleads

/-- Only in a padded list there are elements to drop, and then its default can be written. -/
theorem exists_writes_of_dropped {element : Descriptor} {size : SizePolicy String}
    {f : String → LengthSource} {default : Value} {kept count : Nat}
    (hcoherent : element.Everywhere Coherent)
    (hcodec : element.Everywhere fun inner ↦ inner.isCodec = false) (hsettled : element.Settled)
    (hrewritable : (Operation.list (element.operation []) (size.map f)
      element.default?).Rewritable)
    (hextent : traversal.extent (size.map f) = .ok (kept, count)) (hlt : kept < count)
    (hdefault : element.default? = some default) :
    ∃ part last, element.Writes default part ∧ Goes none part last := by
  obtain ⟨-, rfl⟩ | ⟨-, rfl⟩ | ⟨key, rfl, -⟩ := (Traversal.extent_map_eq_ok hextent).2
  · exact (Nat.lt_irrefl _ hlt).elim
  · exact (Nat.lt_irrefl _ hlt).elim
  · obtain ⟨writer, hencode⟩ := hrewritable.filled _ _ _ _ (.here _) default hdefault
    obtain ⟨part, hwrites, halong⟩ := isWritten hcoherent hcodec hsettled _ _ _ _ _ hencode
    obtain ⟨word, bytes, hemits, -⟩ := halong.emits [] _ _ (.done _)
    rw [List.append_nil] at hemits
    obtain ⟨last, hgoes⟩ := exists_emits_iff.1 ⟨word, bytes, hemits⟩
    exact ⟨part, last, hwrites, hgoes⟩

theorem isRestored_list {element : Descriptor} {size : SizePolicy String}
    (hcoherent : element.Everywhere Coherent)
    (hcodec : element.Everywhere fun inner ↦ inner.isCodec = false) (hsettled : element.Settled)
    (hlentInside : element.Lent []) (hends : element.endsContainer) (helement : element.IsRestored) :
    IsRestored ⟨.list element size, byteOrder, hasFixedSize, minSize⟩ := by
  intro chain traversal reader value next _ hrewritable h
  change Operation.decode traversal (.list ..) reader = _ at h
  change (Operation.list (element.operation []) (size.map (.from chain))
    element.default?).Rewritable at hrewritable
  rw [Operation.decode] at h
  obtain ⟨⟨kept, count⟩, _, hdata, h⟩ := run_bind_eq_ok_iff.1 h
  obtain ⟨hextent, rfl⟩ := ReadM.run_ofData_eq_ok_iff.1 hdata
  obtain ⟨items, _, hitems, h⟩ := run_bind_eq_ok_iff.1 h
  obtain ⟨rfl, rfl⟩ := run_pure_eq_ok_iff.1 h
  have hitem : ∀ position reader value next,
      ReadM.locate (traversal.enterIndex position).path
        ((element.operation []).decode (traversal.enterIndex position)) reader = .ok value next →
        ∃ moves, element.Restored reader value next moves :=
    fun position reader value next h ↦
      (helement [] _ _ _ _ hlentInside hrewritable.of_element (ReadM.run_locate_eq_ok_iff.1 h)).2
  obtain ⟨default, hdefault⟩ := Option.isSome_iff_exists.1 (isSome_default? hcodec)
  obtain ⟨part, hpart⟩ : ∃ part, kept < count →
      ∃ last, element.Writes default part ∧ Goes none part last := by
    by_cases hlt : kept < count
    · obtain ⟨part, hpart⟩ :=
        exists_writes_of_dropped hcoherent hcodec hsettled hrewritable hextent hlt hdefault
      exact ⟨part, fun _ ↦ hpart⟩
    · exact ⟨[], fun h ↦ (hlt h).elim⟩
  have hfree : kept < 0 + count → ∀ reader value next moves,
      element.Restored reader value next moves → reader.Leads part next := by
    intro hlt reader value next moves hrestored
    obtain ⟨last, hwrites, hgoes⟩ := hpart (by omega)
    exact hrestored.leads.of_seals (seals_of_writes hcoherent hends hrestored.writes)
      (seals_of_writes hcoherent hends hwrites) hgoes
  obtain ⟨found, parts, hvalues, hcount, hfound, hparts, hleads⟩ :=
    exists_restored_of_decodeItems hitem hfree hitems
  obtain rfl : items = found := hvalues
  rw [Nat.sub_zero, Nat.min_eq_right (Traversal.extent_eq_ok hextent).2.1] at hcount
  subst hcount
  rw [Nat.sub_zero, ← List.flatten_append] at hleads
  obtain ⟨hextended, hfilled⟩ := Traversal.fills_of_extent hextent default
  rw [← hdefault] at hextended hfilled
  refine ⟨provided_of_sourceLength rfl rfl (Traversal.extent_map_eq_ok hextent).1, _, ?_,
    fun item hmem ↦ (hfound item hmem).2,
    ⟨items, _, _, rfl, hfilled, List.rel_append hparts ?_, rfl⟩, hleads⟩
  · change Value.list ((size.extended element.default? items).map element.normalize) = .list items
    rw [hextended, List.map_congr_left fun item hmem ↦ (hfound item hmem).1, List.map_id']
  · refine forall₂_replicate fun hne ↦ ?_
    obtain ⟨last, hwrites, -⟩ := hpart (by omega)
    exact hwrites

end Descriptor

end WireFormat
