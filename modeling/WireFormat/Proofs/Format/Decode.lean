import WireFormat.Plan.Decode
import WireFormat.Proofs.Format.Encode
import WireFormat.Proofs.Format.Normalize
import WireFormat.Proofs.Stream.Reading
import WireFormat.Proofs.Value.Scalar

/-!
# What is read

Before the moves of a value, the operation of a descriptor reads what `Descriptor.reread` makes of
the value, which is what `Descriptor.normalize` makes of it if NUL ends no text.

* `Descriptor.Provided.sourceLength_from` — the lengths read before are those that the value has;
* `Descriptor.reads_length` — a length is read back from the field that carries it;
* `Descriptor.isReread` — a value is read back from its moves;
* `Descriptor.readsBack` — and without NUL in texts it is the normalized value.
-/

namespace WireFormat

open Reader (Reads reads_readBytes reads_readRaw reads_readUntilNul reads_resetBits reads_skip
  reads_unpack)

/-! ## Steps of a reader -/

theorem ReadM.reads_ofData {α : Type} {x : Except DataError α} {a : α} (h : x = .ok a) :
    Reads (ReadM.ofData x) [] a := by
  subst h
  exact .pure a

/-! ## Scalars and lengths -/

theorem Flavor.reads_ofScalar {flavor : Flavor} {kind : ScalarKind} {byteOrder : ByteOrder}
    {value : Value} {moves : List Move} (h : flavor.WritesScalar kind byteOrder value moves)
    (traversal : Traversal Members) :
    Reads ((Operation.ofScalar kind byteOrder flavor).decode traversal) moves value := by
  obtain ⟨raw, hraw, rfl⟩ := h
  obtain ⟨hlt, hdecode⟩ := decode_encode hraw
  rw [Operation.ofScalar, Operation.decode]
  exact Reads.bind_nil (reads_readRaw hlt _) (ReadM.reads_ofData hdecode)

/-- A length is read back from the field that carries it. -/
theorem Descriptor.reads_length {descriptor : Descriptor} {length : Nat} {moves : List Move}
    (hcoherent : descriptor.Coherent)
    (h : descriptor.kind.WritesLength descriptor.byteOrder length moves) :
    ∃ value, descriptor.kind.lengthValue? length = some value ∧
      value.toInteger? = some (length : Int) ∧
      ∀ chain traversal, Reads ((descriptor.operation chain).decode traversal) moves value := by
  obtain ⟨kind, byteOrder, hasFixedSize, minSize⟩ := descriptor
  cases kind with
  | scalar kind =>
    obtain ⟨raw, hraw, rfl⟩ := h
    obtain ⟨hlt, own, rfl, hfits, hdecode⟩ := Value.ofRaw_integerToRaw hraw
    have hread := IntegerKind.read_ofInt hfits
    rw [BitVec.ofInt_natCast] at hdecode hread
    refine ⟨_, rfl, congrArg some hread, fun chain traversal ↦ ?_⟩
    change Reads (Operation.decode traversal (.ofScalar (.integer own) byteOrder .native)) _ _
    rw [Operation.ofScalar, Operation.decode]
    exact Reads.bind_nil (reads_readRaw hlt _) (ReadM.reads_ofData hdecode)
  | bits content repr width container =>
    cases content with
    | integer =>
      obtain ⟨bits, hbits, rfl⟩ := h
      have hwidth : width ≤ repr.bits := hcoherent.2
      have hfits := Flavor.fits_of_bitsOf hwidth hbits
      have hread := IntegerKind.read_ofInt hfits
      have hdecode := Flavor.decodeBits_bitsOf hwidth hfits hbits
      have hzero := (Flavor.bitsOf_eq_ok (Nat.le_trans hwidth repr.bits_le) hbits).1
      rw [BitVec.ofInt_natCast] at hdecode hread
      refine ⟨_, rfl, congrArg some hread, fun chain traversal ↦ ?_⟩
      change Reads (Operation.decode traversal (.bits ..)) _ _
      rw [Operation.decode, if_neg hzero]
      exact Reads.bind_nil (reads_unpack hzero) (ReadM.reads_ofData hdecode)
    | _ => cases h
  | _ => cases h

/-! ## Lengths that have been read -/

/-- The lengths that a value asks its surroundings for have been read, and are the value's own. -/
def Descriptor.Provided (descriptor : Descriptor) (value : Value) (chain : List Enclosure)
    (traversal : Traversal Members) : Prop :=
  ∀ demand ∈ descriptor.demands, ∀ inner enclosure outer, chain = inner ++ enclosure :: outer →
    (∀ other ∈ demand.chain ++ inner, other.carriers demand.key = []) →
    enclosure.carriers demand.key ≠ [] →
      ∃ length : Nat, demand.feed.count value = some length ∧
        traversal.length? inner.length demand.key = some (length : Int)

/-- The lengths of a value that asks its surroundings for them can be had. -/
def Descriptor.Lent (descriptor : Descriptor) (chain : List Enclosure) : Prop :=
  ∀ demand ∈ descriptor.demands, Lends demand.key (demand.chain ++ chain)

/-- With no records around, all lengths have to be had inside. -/
theorem Descriptor.lent_nil {descriptor : Descriptor}
    (h : ∀ demand ∈ descriptor.demands, Lends demand.key demand.chain) : descriptor.Lent [] := by
  intro demand hmem
  rw [List.append_nil]
  exact h demand hmem

/-- The lengths of a field can be had if those of its record can. -/
theorem Descriptor.Lent.of_field {name : String} {fields : List FieldDescriptor}
    {field : FieldDescriptor} {byteOrder : ByteOrder} {hasFixedSize : Bool} {minSize : UInt64}
    {chain : List Enclosure}
    (h : Descriptor.Lent ⟨.record name fields, byteOrder, hasFixedSize, minSize⟩ chain)
    (hmem : field ∈ fields) (hserialize : field.serialize) :
    field.descriptor.Lent (⟨name, fields, field⟩ :: chain) := by
  intro demand hdemand
  have hlends := h _ (mem_demandsAll_iff.2 ⟨field, hmem, hserialize, demand, hdemand, rfl⟩)
  rwa [Demand.within, List.append_assoc] at hlends

/-- The list or text at hand is lent the length that it asks for. -/
theorem Descriptor.Lent.lends {descriptor : Descriptor} {chain : List Enclosure} {key : String}
    (h : descriptor.Lent chain) (hkey : descriptor.lengthKey? = some key) : Lends key chain :=
  h ⟨[], key, descriptor.measure⟩ (mem_demands_iff_own_or_field.2 (.inl ⟨rfl, hkey, rfl⟩))

/-- With no records around, there is no length to be had from them. -/
theorem Descriptor.provided_nil (descriptor : Descriptor) (value : Value)
    (traversal : Traversal Members) : descriptor.Provided value [] traversal := by
  intro demand _ inner enclosure outer hchain
  cases inner <;> cases hchain

/-- The length of the list or text at hand has been read. -/
theorem Descriptor.Provided.sourceLength_from {descriptor : Descriptor} {value : Value}
    {chain : List Enclosure} {traversal : Traversal Members} {policy : SizePolicy String}
    {measure : Measure} {length : Nat} (h : descriptor.Provided value chain traversal)
    (hlent : descriptor.Lent chain) (hdemands : descriptor.demands = policy.demands measure)
    (hcount : measure.count value = some length) (key : String) (hkey : policy.key? = some key) :
    traversal.sourceLength (.from chain key) = .ok length := by
  have hmem : ⟨[], key, measure⟩ ∈ descriptor.demands :=
    hdemands ▸ mem_policy_demands_iff.2 ⟨rfl, hkey, rfl⟩
  have hlends := hlent _ hmem
  rw [List.nil_append] at hlends
  obtain @⟨inner, outer, enclosure, carrier, own, inside, outside, earlier⟩ := hlends
  have hcarries : enclosure.carriers key ≠ [] := by simp [own]
  obtain ⟨found, hfound, hlength⟩ := h _ hmem inner enclosure outer rfl inside hcarries
  obtain rfl : found = length := Option.some.inj (hfound.symm.trans hcount)
  rw [LengthSource.from_eq hcarries inside, Traversal.sourceLength, hlength]
  simp

/-! ## Texts -/

namespace TextSize

variable {encoding : Encoding} {size : TextSize String} {text : String} {bytes : List UInt8}
  {moves : List Move} {chain : List Enclosure} {traversal : Traversal Members}

/-- What is read back of the bytes of a text. -/
def keptBytes (size : TextSize String) (encoding : Encoding) (bytes : List UInt8) : List UInt8 :=
  if size.endsAtNul encoding then bytes.takeWhile (· != 0) else bytes

/-- The bytes of a text that are read back are those of the text that is. -/
theorem encode_kept (h : encoding.encode text = .ok bytes) :
    encoding.encode (size.kept encoding text) = .ok (size.keptBytes encoding bytes) := by
  rw [kept, keptBytes]
  split
  · next hends =>
    refine Encoding.encode_untilNul ?_ h
    cases size with
    | nullTerminated => cases hends
    | sized policy =>
      cases policy with
      | fixed slots => exact hends
      | _ => cases hends
  · exact h

/-- The zeros after some bytes do not count before the first zero byte. -/
theorem takeWhile_append_zeros (bytes : List UInt8) (count : Nat) :
    (bytes ++ List.replicate count 0).takeWhile (· != 0) = bytes.takeWhile (· != 0) := by
  induction bytes with
  | nil => rw [List.nil_append, List.takeWhile_replicate, if_neg (by simp), List.takeWhile_nil]
  | cons byte bytes ih => rw [List.cons_append, List.takeWhile_cons, List.takeWhile_cons, ih]

/-- The bytes of a text are read back, up to the first zero byte where this ends the text. -/
theorem reads_decodeTextBytes {f : String → LengthSource}
    (hlength : ∀ policy key, size = .sized policy → policy.key? = some key →
      traversal.sourceLength (f key) = .ok bytes.length)
    (h : size.Writes encoding bytes moves) :
    Reads (Operation.decodeTextBytes traversal encoding (size.map f)) moves
      (size.keptBytes encoding bytes) := by
  cases h with
  | nullTerminated nul => exact reads_readUntilNul nul
  | keyed key =>
    have hextent : traversal.extent (.keyed (f key)) = .ok (bytes.length, bytes.length) := by
      rw [Traversal.extent, hlength _ key rfl rfl]
      rfl
    refine Reads.bind (ReadM.reads_ofData hextent) (Reads.bind (reads_readBytes bytes) ?_)
    rw [Nat.sub_self]
    exact Reads.bind_nil (reads_skip []) (.pure bytes)
  | @padded key slots le =>
    have hextent : traversal.extent (.padded (f key) slots) = .ok (bytes.length, slots) := by
      rw [Traversal.extent, hlength _ key rfl rfl]
      change (if slots < bytes.length then _ else _) = _
      rw [if_neg (Nat.not_lt.2 le)]
      rfl
    refine Reads.bind (ReadM.reads_ofData hextent) (Reads.bind (reads_readBytes bytes) ?_)
    have hskip := reads_skip (List.replicate (slots - bytes.length) 0)
    rw [List.length_replicate] at hskip
    exact hskip.bind_nil (.pure bytes)
  | @fixed slots le terminable =>
    have hread : Reads (Reader.readBytes slots)
        [.bytes bytes, .bytes (List.replicate (slots - bytes.length) 0)]
        (bytes ++ List.replicate (slots - bytes.length) 0) := by
      intro more rest reader hahead
      have hbytes := reads_readBytes _ _ _ _ (Reader.Ahead.append_bytes hahead)
      rwa [List.length_append, List.length_replicate, Nat.add_sub_cancel' le] at hbytes
    refine hread.bind_nil ?_
    change Reads _ _ (if encoding.isNullTerminable then bytes.takeWhile (· != 0) else bytes)
    cases hterminable : encoding.isNullTerminable with
    | true =>
      rw [if_pos rfl, if_pos rfl, takeWhile_append_zeros]
      exact .pure _
    | false =>
      rw [if_neg (by simp), if_neg (by simp)]
      have heq : slots - bytes.length = 0 := by
        refine Nat.sub_eq_zero_of_le (Nat.not_lt.1 fun hlt ↦ ?_)
        rw [terminable hlt] at hterminable
        cases hterminable
      rw [heq, List.replicate_zero, List.append_nil]
      exact .pure bytes

end TextSize

/-! ## Lists -/

namespace SizePolicy

variable {κ : Type} {policy : SizePolicy κ} {default? : Option Value} {items filled : List Value}

/-- A list with free slots takes all slots. -/
theorem filled?_eq_some {slots : Nat} (hslots : policy.slots? = some slots)
    (h : policy.filled? default? items = some filled) : items.length ≤ slots ∧
      filled = items ++ (default?.map (List.replicate (slots - items.length))).getD [] ∧
      filled.length = slots := by
  rw [filled?, hslots] at h
  dsimp only at h
  split at h
  · cases h
  · next hle =>
    refine ⟨Nat.not_lt.1 hle, ?_⟩
    split at h
    · next heq =>
      cases h
      subst heq
      cases default? <;> simp
    · obtain ⟨value, hvalue, rfl⟩ := Option.map_eq_some_iff.1 h
      simp [hvalue, Nat.add_sub_cancel' (Nat.not_lt.1 hle)]

/-- As many elements are read as have been written, and of these the ones are kept that make up the
list. -/
theorem exists_extent_map {policy : SizePolicy String} {f : String → LengthSource}
    {traversal : Traversal Members}
    (hlength : ∀ key, policy.key? = some key →
      traversal.sourceLength (f key) = .ok items.length)
    (h : policy.filled? default? items = some filled) :
    ∃ kept, traversal.extent (policy.map f) = .ok (kept, filled.length) ∧
      filled.take kept = policy.extended default? items := by
  cases policy with
  | fixed slots =>
    obtain ⟨-, hfilled, hslots⟩ := filled?_eq_some rfl h
    refine ⟨slots, by rw [hslots]; rfl, ?_⟩
    rw [← hslots, List.take_length, extended, hslots]
    exact hfilled
  | keyed key =>
    obtain rfl : items = filled := Option.some.inj h
    refine ⟨items.length, ?_, List.take_length⟩
    rw [map, Traversal.extent, hlength key rfl]
    rfl
  | padded key slots =>
    obtain ⟨hle, hfilled, hslots⟩ := filled?_eq_some rfl h
    refine ⟨items.length, ?_, ?_⟩
    · rw [map, Traversal.extent, hlength key rfl, hslots]
      change (if slots < items.length then _ else _) = _
      rw [if_neg (Nat.not_lt.2 hle)]
      rfl
    · rw [hfilled, List.take_left]
      rfl

end SizePolicy

theorem Operation.reads_decodeItems {action : Nat → ReadM Value} {values : List Value}
    {parts : List (List Move)}
    (h : List.Forall₂ (fun value part ↦ ∀ position, Reads (action position) part value) values
      parts) (kept position : Nat) (items : List Value) :
    Reads (decodeItems action kept position items values.length) parts.flatten
      (items.reverse ++ values.take (kept - position)) := by
  induction h generalizing position items with
  | nil =>
    rw [List.take_nil, List.append_nil]
    exact .pure _
  | @cons value part values parts hitem _ ih =>
    refine (hitem position).bind ?_
    have hnext := ih (position + 1) (if position < kept then value :: items else items)
    by_cases hkept : position < kept
    · rw [if_pos hkept] at hnext ⊢
      rw [List.reverse_cons, List.append_assoc, List.singleton_append, ← List.take_succ_cons,
        show kept - (position + 1) + 1 = kept - position by omega] at hnext
      exact hnext
    · rw [if_neg hkept] at hnext ⊢
      rw [show kept - (position + 1) = 0 by omega, List.take_zero] at hnext
      rwa [show kept - position = 0 by omega, List.take_zero]

/-! ## Lengths of a record -/

theorem feedOf_eq_some {demands : List Demand} {demand : Demand} (hmem : demand ∈ demands)
    (hcount : demands.countP (fun other ↦ other.key == demand.key) = 1) :
    feedOf demands demand.key = some demand.feed := by
  rw [List.countP_eq_length_filter, List.length_eq_one_iff] at hcount
  obtain ⟨only, honly⟩ := hcount
  have hfilter : demand ∈ demands.filter fun other ↦ other.key == demand.key :=
    List.mem_filter.2 ⟨hmem, by simp⟩
  rw [honly, List.mem_singleton] at hfilter
  rw [feedOf, ← List.head?_filter, honly, hfilter]
  rfl

/-- From one record further out, a length counts the same. -/
theorem Demand.count_within (demand : Demand) (enclosure : Enclosure) {members : Members}
    {value : Value} (h : members.find? enclosure.member.name = some value) :
    (demand.within enclosure).feed.count (.record members) = demand.feed.count value := by
  have hpath : (demand.within enclosure).path = enclosure.member.name :: demand.path := by
    simp [path, within]
  rw [LengthFeed.count, feed, hpath, Value.follow?]
  change (((members.find? _).bind _).bind _) = _
  rw [h]
  rfl

/-- The traversal is in a record whose fields `done` have been read.  Their values are those of
`pairs`, and the lengths that they carry are those of the members. -/
def Traversal.Inside (outer : Traversal Members) (demands : List Demand) (members : Members)
    (done : List FieldDescriptor) (pairs : List (String × Value))
    (traversal : Traversal Members) : Prop :=
  ∃ typeName lengths, traversal.frames = ⟨typeName, .ofList pairs, lengths⟩ :: outer.frames ∧
    ∀ field ∈ done, ∀ key, field.carries key → ∃ (feed : LengthFeed) (length : Nat),
      feedOf demands key = some feed ∧ feed.count (.record members) = some length ∧
        lengths.lookup key = some (length : Int)

namespace Traversal.Inside

variable {outer traversal : Traversal Members} {demands : List Demand} {members : Members}
  {done rest : List FieldDescriptor} {pairs : List (String × Value)} {field : FieldDescriptor}
  {value : Value}

theorem of_not_serialize (h : Inside outer demands members done pairs traversal)
    (hserialize : field.serialize = false) :
    Inside outer demands members (done ++ [field]) pairs traversal := by
  obtain ⟨typeName, lengths, hframes, hlengths⟩ := h
  refine ⟨typeName, lengths, hframes, List.forall_mem_append.2 ⟨hlengths, ?_⟩⟩
  rintro _ (_ | ⟨_, ⟨⟩⟩) key hcarries
  rw [FieldDescriptor.carries, hserialize] at hcarries
  cases hcarries

/-- A field that has been read is kept, with the length that it carries. -/
theorem exists_keep (h : Inside outer demands members done pairs traversal)
    (hlength : ∀ key, field.lengthOf = some key → ∃ (feed : LengthFeed) (length : Nat),
      feedOf demands key = some feed ∧ feed.count (.record members) = some length ∧
        value.toInteger? = some (length : Int)) :
    ∃ next, FieldPlan.keep traversal field.name field.lengthOf value = .ok next ∧
      Inside outer demands members (done ++ [field]) (pairs ++ [(field.name, value)]) next := by
  obtain ⟨typeName, lengths, hframes, hlengths⟩ := h
  cases hkey : field.lengthOf with
  | none =>
    refine ⟨_, rfl, typeName, lengths, ?_, List.forall_mem_append.2 ⟨hlengths, ?_⟩⟩
    · rw [← Members.insert_ofList, modifySubject, modifyFrame, hframes]
      rfl
    · rintro _ (_ | ⟨_, ⟨⟩⟩) key hcarries
      rw [(FieldDescriptor.carries_iff.1 hcarries).2] at hkey
      cases hkey
  | some own =>
    obtain ⟨feed, length, hfeed, hcount, hvalue⟩ := hlength own hkey
    refine ⟨(traversal.record own length).modifySubject (Members.insert field.name value), ?_,
      typeName, (own, (length : Int)) :: lengths, ?_, ?_⟩
    · rw [FieldPlan.keep, hvalue]
      rfl
    · rw [← Members.insert_ofList, modifySubject, modifyFrame, record, modifyFrame, hframes]
      rfl
    · intro other hmem key hcarries
      by_cases heq : key = own
      · subst heq
        exact ⟨feed, length, hfeed, hcount, by simp⟩
      · rcases List.mem_append.1 hmem with hmem | hmem
        · obtain ⟨feed, length, hfeed, hcount, hlookup⟩ := hlengths other hmem key hcarries
          exact ⟨feed, length, hfeed, hcount, by rwa [List.lookup_cons, beq_false_of_ne heq]⟩
        · obtain rfl := List.mem_singleton.1 hmem
          rw [(FieldDescriptor.carries_iff.1 hcarries).2, Option.some.injEq] at hkey
          exact (heq hkey).elim

/-- The lengths that a field asks for have been read: those of its own record before it, and the
others before the record. -/
theorem provided {name : String} {fields : List FieldDescriptor} {chain : List Enclosure}
    {byteOrder : ByteOrder} {hasFixedSize : Bool} {minSize : UInt64}
    (h : Inside outer (FieldDescriptor.demandsAll name fields fields) members done pairs traversal)
    (hfields : done ++ field :: rest = fields)
    (horders : fields.Pairwise fun first second ↦ first.order < second.order)
    (htaken : ∀ field ∈ fields, ∀ key, field.carries key →
      (FieldDescriptor.demandsAll name fields fields).countP (fun demand ↦ demand.key == key) = 1)
    (hlent : Descriptor.Lent ⟨.record name fields, byteOrder, hasFixedSize, minSize⟩ chain)
    (hprovided : Descriptor.Provided ⟨.record name fields, byteOrder, hasFixedSize, minSize⟩
      (.record members) chain outer)
    (hserialize : field.serialize) (hvalue : members.find? field.name = some value) :
    field.descriptor.Provided value (⟨name, fields, field⟩ :: chain) traversal := by
  intro demand hmem inner enclosure rest' hchain hinner hcarriers
  have hmember : field ∈ fields := hfields ▸ List.mem_append_right done List.mem_cons_self
  have hwithin : demand.within ⟨name, fields, field⟩ ∈
      FieldDescriptor.demandsAll name fields fields :=
    Descriptor.mem_demandsAll_iff.2 ⟨field, hmember, hserialize, demand, hmem, rfl⟩
  have hcount := demand.count_within ⟨name, fields, field⟩ hvalue
  obtain ⟨typeName, lengths, hframes, hlengths⟩ := h
  cases inner with
  | nil =>
    obtain ⟨rfl, rfl⟩ := List.cons.inj hchain
    obtain ⟨-, -, carrier, own, earlier⟩ :=
      Descriptor.carriers_of_lends (hlent.of_field hmember hserialize demand hmem) hcarriers
    obtain ⟨hcarrier, hcarries⟩ := List.mem_filter.1 (own ▸ List.mem_singleton_self carrier)
    have hdone : carrier ∈ done := by
      rw [← hfields] at hcarrier horders
      rcases List.mem_append.1 hcarrier with hdone | hrest
      · exact hdone
      · have hafter := (List.pairwise_append.1 horders).2.1
        rcases List.mem_cons.1 hrest with rfl | hrest
        · exact (Nat.lt_irrefl _ earlier).elim
        · exact (Nat.lt_asymm earlier ((List.pairwise_cons.1 hafter).1 carrier hrest)).elim
    obtain ⟨feed, length, hfeed, hlength, hlookup⟩ := hlengths carrier hdone demand.key hcarries
    have hown := feedOf_eq_some hwithin (htaken carrier hcarrier demand.key hcarries)
    rw [Demand.within_key, hfeed, Option.some.injEq] at hown
    rw [hown, hcount] at hlength
    refine ⟨length, hlength, ?_⟩
    rw [length?, hframes]
    exact hlookup
  | cons first inner =>
    obtain ⟨rfl, rfl⟩ := List.cons.inj hchain
    obtain ⟨length, hlength, hread⟩ := hprovided _ hwithin inner enclosure rest' rfl
      (by simpa [Demand.within] using hinner) hcarriers
    rw [hcount] at hlength
    refine ⟨length, hlength, ?_⟩
    rw [length?, hframes]
    exact hread

end Traversal.Inside

/-! ## Fields -/

/-- What reading the moves of a value under the operation of a descriptor comes to. -/
def Descriptor.IsReread (descriptor : Descriptor) : Prop :=
  ∀ (chain : List Enclosure) (traversal : Traversal Members) (value : Value) (moves : List Move),
    descriptor.Lent chain → descriptor.Provided value chain traversal →
      descriptor.Writes value moves →
        Reads ((descriptor.operation chain).decode traversal) moves (descriptor.reread value)

/-- What it comes to without NUL in texts. -/
def Descriptor.ReadsBack (descriptor : Descriptor) : Prop :=
  ∀ (chain : List Enclosure) (traversal : Traversal Members) (value : Value) (moves : List Move),
    descriptor.Lent chain → descriptor.Provided value chain traversal → descriptor.NulFree value →
      descriptor.Writes value moves →
        Reads ((descriptor.operation chain).decode traversal) moves (descriptor.normalize value)

namespace FieldDescriptor

variable {name : String} {fields done rest : List FieldDescriptor} {field : FieldDescriptor}
  {chain : List Enclosure} {byteOrder : ByteOrder} {hasFixedSize : Bool} {minSize : UInt64}
  {outer traversal : Traversal Members} {members : Members} {pairs : List (String × Value)}
  {moves : List Move}

/-- A field by itself is read back. -/
theorem exists_reads_own (hcoherent : field.descriptor.Coherent)
    (hreads : ∀ value, members.find? field.name = some value → ∀ moves,
      field.descriptor.Writes value moves →
        Reads ((field.descriptor.operation chain).decode traversal) moves
          (field.descriptor.reread value))
    {demands : List Demand}
    (h : WritesOwn demands members field.name field.descriptor field.lengthOf
      field.descriptor.Writes moves) :
    ∃ value, normalizeOwn? demands members field.name field.descriptor.kind field.lengthOf
        field.descriptor.reread = some value ∧
      Reads ((field.descriptor.operation chain).decode traversal) moves value ∧
      ∀ key, field.lengthOf = some key → ∃ (feed : LengthFeed) (length : Nat),
        feedOf demands key = some feed ∧ feed.count (.record members) = some length ∧
          value.toInteger? = some (length : Int) := by
  cases hkey : field.lengthOf with
  | none =>
    rw [hkey] at h
    obtain ⟨value, hvalue, hwrites⟩ := h
    refine ⟨_, ?_, hreads value hvalue _ hwrites, nofun⟩
    rw [normalizeOwn?, hvalue]
    rfl
  | some key =>
    rw [hkey] at h
    obtain ⟨feed, length, hfeed, hcount, hwrites⟩ := h
    obtain ⟨value, hvalue, hinteger, hread⟩ := Descriptor.reads_length hcoherent hwrites
    refine ⟨value, ?_, hread _ _, ?_⟩
    · rw [normalizeOwn?, hfeed]
      change (feed.count (.record members)).bind _ = _
      rw [hcount]
      exact hvalue
    · rintro _ ⟨⟩
      exact ⟨feed, length, hfeed, hcount, hinteger⟩

theorem reads_padding {α : Type} {action : ReadM α} {a : α} (padAfter : Bool)
    (h : Reads action moves a) :
    Reads (if padAfter then do Reader.resetBits; action else action) (padding padAfter ++ moves)
      a := by
  cases padAfter with
  | false => exact h
  | true => exact reads_resetBits.bind h

/-- The fields of a record are read back. -/
theorem reads_decodeAll
    (horders : fields.Pairwise fun first second ↦ first.order < second.order)
    (htaken : ∀ field ∈ fields, ∀ key, field.carries key →
      (demandsAll name fields fields).countP (fun demand ↦ demand.key == key) = 1)
    (hlent : Descriptor.Lent ⟨.record name fields, byteOrder, hasFixedSize, minSize⟩ chain)
    (hprovided : Descriptor.Provided ⟨.record name fields, byteOrder, hasFixedSize, minSize⟩
      (.record members) chain outer)
    (hreads : ∀ field ∈ fields, field.serialize → field.descriptor.IsReread)
    (hcoherent : ∀ field ∈ fields, field.descriptor.Coherent) (hfields : done ++ rest = fields)
    (hinside : Traversal.Inside outer (demandsAll name fields fields) members done pairs traversal)
    (h : WritesAll (demandsAll name fields fields) members rest moves) :
    Reads (FieldPlan.decodeAll traversal ((rest.filter FieldDescriptor.serialize).map
      (plan name fields chain))) moves
      (Members.ofList (pairs ++ rereadAll (demandsAll name fields fields) members rest)) := by
  induction rest generalizing done pairs traversal moves with
  | nil =>
    obtain rfl : moves = [] := h
    obtain ⟨typeName, lengths, hframes, -⟩ := hinside
    have hsubject : traversal.subject?.getD [] = Members.ofList (pairs ++ []) := by
      rw [Traversal.subject?, hframes, List.append_nil]
      rfl
    change Reads (pure (traversal.subject?.getD [])) _ _
    rw [hsubject]
    exact .pure _
  | cons field rest ih =>
    have hmem : field ∈ fields := hfields ▸ List.mem_append_right done List.mem_cons_self
    have hfields' := hfields
    rw [List.append_cons] at hfields
    cases hserialize : field.serialize with
    | false =>
      rw [List.filter_cons_of_neg (by simp [hserialize]), rereadAll_cons, hserialize]
      exact ih hfields (hinside.of_not_serialize hserialize)
        ((writesAll_cons_of_not_serialize hserialize).1 h)
    | true =>
      obtain ⟨own, more, hown, hmore, rfl⟩ := (writesAll_cons_of_serialize hserialize).1 h
      have hreadInside := fun value hfind moves hwrites ↦ hreads field hmem hserialize
        (⟨name, fields, field⟩ :: chain) (traversal.enter field.name) value moves
        (hlent.of_field hmem hserialize)
        (hinside.provided hfields' horders htaken hlent hprovided hserialize hfind) hwrites
      obtain ⟨value, hvalue, hread, hlength⟩ :=
        exists_reads_own (hcoherent field hmem) hreadInside hown
      obtain ⟨next, hkeep, hnext⟩ := hinside.exists_keep hlength
      have hrest := ih hfields hnext hmore
      have hresult : pairs ++ rereadAll (demandsAll name fields fields) members
          (field :: rest) = pairs ++ [(field.name, value)] ++
            rereadAll (demandsAll name fields fields) members rest := by
        rw [rereadAll_cons, if_pos hserialize, hvalue, List.append_assoc]
        rfl
      rw [hresult, List.filter_cons_of_pos hserialize, List.map_cons, plan, FieldPlan.decodeAll]
      have hone : Reads (ReadM.locate (traversal.enter field.name).path do
          let value ← (field.descriptor.operation (⟨name, fields, field⟩ :: chain)).decode
            (traversal.enter field.name)
          ReadM.ofData (FieldPlan.keep traversal field.name field.lengthOf value)) own next :=
        (hread.bind_nil (ReadM.reads_ofData hkeep)).adaptExcept _
      rw [List.append_assoc]
      exact hone.bind (reads_padding field.padAfter hrest)

end FieldDescriptor

/-! ## Descriptors -/

namespace Descriptor

variable {byteOrder : ByteOrder} {hasFixedSize : Bool} {minSize : UInt64}

theorem isReread_text {encoding : Encoding} {size : TextSize String} :
    IsReread ⟨.text encoding size, byteOrder, hasFixedSize, minSize⟩ := by
  rintro chain traversal value moves hlent hprovided ⟨text, bytes, rfl, hencode, hwrites⟩
  change Reads (Operation.decode traversal (.text ..)) _ (Value.text (size.kept encoding text))
  rw [Operation.decode]
  have hlength : ∀ policy key, size = .sized policy → policy.key? = some key →
      traversal.sourceLength (.from chain key) = .ok bytes.length := by
    rintro policy key rfl hkey
    refine hprovided.sourceLength_from hlent rfl ?_ key hkey
    rw [Measure.count, hencode]
    rfl
  have hkept : encoding.decode (size.keptBytes encoding bytes) = .ok (size.kept encoding text) :=
    Encoding.decode_encode (TextSize.encode_kept hencode)
  refine (size.reads_decodeTextBytes hlength hwrites).bind_nil ?_
  exact (ReadM.reads_ofData hkept).bind_nil (.pure _)

theorem isReread_list {element : Descriptor} {size : SizePolicy String}
    (helement : element.IsReread) (hlentInside : element.Lent []) :
    IsReread ⟨.list element size, byteOrder, hasFixedSize, minSize⟩ := by
  rintro chain traversal value moves hlent hprovided
    ⟨items, filled, parts, rfl, hfilled, hparts, rfl⟩
  change Reads (Operation.decode traversal (.list ..)) _
    (.list ((size.extended element.default? items).map element.reread))
  rw [Operation.decode]
  obtain ⟨kept, hextent, hkept⟩ :=
    SizePolicy.exists_extent_map (hprovided.sourceLength_from hlent rfl rfl) hfilled
  refine (ReadM.reads_ofData hextent).bind ?_
  have hitems : List.Forall₂ (fun value part ↦ ∀ position, Reads
      (ReadM.locate (traversal.enterIndex position).path
        ((element.operation []).decode (traversal.enterIndex position))) part value)
      (filled.map element.reread) parts := by
    rw [List.forall₂_map_left_iff]
    refine hparts.imp fun item part hwrites position ↦ ?_
    exact (helement [] _ item part hlentInside (provided_nil _ _ _) hwrites).adaptExcept _
  have hread := Operation.reads_decodeItems hitems kept 0 []
  rw [List.length_map, Nat.sub_zero, ← List.map_take, hkept] at hread
  exact hread.bind_nil (.pure _)

theorem isReread_record {name : String} {fields : List FieldDescriptor}
    (hfields : FieldDescriptor.Coherent fields)
    (htaken : ∀ field ∈ fields, ∀ key, field.carries key →
      (FieldDescriptor.demandsAll name fields fields).countP (fun demand ↦ demand.key == key) = 1)
    (hreads : ∀ field ∈ fields, field.serialize → field.descriptor.IsReread)
    (hcoherent : ∀ field ∈ fields, field.descriptor.Coherent) :
    IsReread ⟨.record name fields, byteOrder, hasFixedSize, minSize⟩ := by
  rintro chain traversal value moves hlent hprovided ⟨members, inner, rfl, hwrites, rfl⟩
  rw [operation_record hfields.names, Operation.decode]
  have hinside : Traversal.Inside traversal (FieldDescriptor.demandsAll name fields fields) members
      [] [] (traversal.push name []) := ⟨name, [], rfl, by simp⟩
  have hread := FieldDescriptor.reads_decodeAll hfields.orders htaken hlent hprovided hreads
    hcoherent rfl hinside hwrites
  have hrecord : Reads (RecordPlan.decode traversal ⟨name, (fields.filter
      FieldDescriptor.serialize).map (FieldDescriptor.plan name fields chain),
      FieldDescriptor.skipped fields⟩) (.bytes [] :: inner ++ [.bytes []])
      (Members.ofList (FieldDescriptor.rereadAll
        (FieldDescriptor.demandsAll name fields fields) members fields ++
          FieldDescriptor.skipped fields)) := by
    rw [RecordPlan.decode, Members.ofList_append]
    exact reads_resetBits.bind (hread.bind (reads_resetBits.bind_nil (.pure _)))
  exact hrecord.bind_nil (.pure _)

/-- A value is read back from its moves, up to the texts that NUL ends. -/
theorem isReread {descriptor : Descriptor} (hcoherent : descriptor.Everywhere Coherent)
    (hsettled : descriptor.Settled) : descriptor.IsReread := by
  induction descriptor using Descriptor.induction with
  | step descriptor ihelement ihfields =>
    obtain ⟨kind, byteOrder, hasFixedSize, minSize⟩ := descriptor
    cases kind with
    | scalar kind | boolean repr | enum repr type =>
      exact fun chain traversal value moves _ _ hwrites ↦ Flavor.reads_ofScalar hwrites traversal
    | bits content repr width container =>
      intro chain traversal value moves _ _ hwrites
      change Reads (Operation.decode traversal (.bits ..)) _ (if width = 0 then _ else _)
      change if width = 0 then _ else _ at hwrites
      rw [Operation.decode]
      split at hwrites
      · next hwidth =>
        rw [if_pos hwidth, if_pos hwidth, hwrites]
        exact reads_resetBits.bind_nil (.pure _)
      · next hwidth =>
        obtain ⟨bits, hbits, rfl⟩ := hwrites
        rw [if_neg hwidth, if_neg hwidth]
        have hdecode := (Flavor.decodeBits_encodeBits hcoherent.here.2 hbits).2.2
        exact (reads_unpack hwidth).bind_nil (ReadM.reads_ofData hdecode)
    | text encoding size => exact isReread_text
    | list element size =>
      obtain ⟨helement, hlent⟩ := settled_list_iff.1 hsettled
      exact isReread_list (ihelement element rfl (hcoherent.of_element rfl) helement)
        (lent_nil hlent)
    | record name fields =>
      obtain ⟨hinside, htaken⟩ := settled_record_iff.1 hsettled
      exact isReread_record hcoherent.here.1 htaken (fun field hmem hserialize ↦
        ihfields field hmem (hcoherent.of_field hmem) (hinside field hmem hserialize))
        fun field hmem ↦ (hcoherent.of_field hmem).here
    | custom codec context => exact fun _ _ _ _ _ _ hwrites ↦ hwrites.elim

/-- Without NUL in texts, a value is read back from its moves. -/
theorem readsBack {descriptor : Descriptor} (hcoherent : descriptor.Everywhere Coherent)
    (hsettled : descriptor.Settled) : descriptor.ReadsBack := by
  intro chain traversal value moves hlent hprovided hnul hwrites
  rw [← reread_eq_normalize hcoherent hnul]
  exact isReread hcoherent hsettled chain traversal value moves hlent hprovided hwrites

end Descriptor

end WireFormat
