import WireFormat.Proofs.Descriptor.Places
import WireFormat.Proofs.Length.Binding

/-!
# Compiling with lengths

Compiling a descriptor answers its demands in the scopes around it, one after the other.
`Descriptor.compilesAs` says what it takes for that to succeed and what then comes out,
without reference to the order: every demand is lent a length, no length is lent twice, and inside
the descriptor everything is settled.
-/

namespace WireFormat

/-! ## Several demands -/

theorem feedOf_append (demands more : List Demand) (key : String) :
    feedOf (demands ++ more) key = (feedOf demands key <|> feedOf more key) := by
  rw [feedOf, feedOf, feedOf, List.find?_append]
  cases demands.find? fun demand ↦ demand.key == key <;> rfl

/-- What some demands feed, and others if they do not, all of them feed. -/
theorem orElse_feedOf_append (own : Option LengthFeed) (demands more : List Demand)
    (key : String) :
    (own <|> feedOf (demands ++ more) key) =
      ((own <|> feedOf demands key) <|> feedOf more key) := by
  rw [feedOf_append]
  cases own <;> rfl

theorem feedOf_ne_none_iff (demands : List Demand) (key : String) :
    feedOf demands key ≠ none ↔ 0 < demands.countP fun demand ↦ demand.key == key := by
  rw [List.countP_pos_iff, feedOf, ne_eq, Option.map_eq_none_iff, List.find?_eq_none]
  simp

theorem length_toList_feedOf (demands : List Demand) (key : String) :
    (feedOf demands key).toList.length =
      min 1 (demands.countP fun demand ↦ demand.key == key) := by
  have hfeed := feedOf_ne_none_iff demands key
  cases h : feedOf demands key with
  | none =>
    simp only [h, ne_eq, not_true_eq_false, false_iff] at hfeed
    rw [Option.toList_none, List.length_nil]
    omega
  | some feed =>
    rw [h] at hfeed
    have := hfeed.1 (by simp)
    rw [Option.toList_some, List.length_singleton]
    omega

theorem countP_key_within (enclosure : Enclosure) (demands : List Demand) (key : String) :
    (demands.map (Demand.within enclosure)).countP (fun demand ↦ demand.key == key) =
      demands.countP fun demand ↦ demand.key == key := by
  rw [List.countP_map]
  rfl

namespace Binder

variable {demands more : List Demand} {frames : List Binder}

@[simp] theorem after_nil : after [] frames = frames := by
  induction frames with
  | nil => rfl
  | cons frame rest ih =>
    rw [after, List.map_nil, ih]
    simp [feedOf]

@[simp] theorem map_enclosure_after :
    (after demands frames).map enclosure = frames.map enclosure := by
  induction frames generalizing demands with
  | nil => rfl
  | cons frame rest ih => simp [after, ih]

theorem after_append : after (demands ++ more) frames = after more (after demands frames) := by
  induction frames generalizing demands more with
  | nil => rfl
  | cons frame rest ih =>
    simp only [after, List.map_append, ih, orElse_feedOf_append]

theorem spares_append (demands more : List Demand) (fields : List FieldDescriptor)
    (feeds : String → Option LengthFeed) :
    Spares fields feeds (demands ++ more) ↔ Spares fields feeds demands ∧
      Spares fields (fun key ↦ feeds key <|> feedOf demands key) more := by
  have hlength : ∀ key, (feeds key).toList.length +
      demands.countP (fun demand ↦ demand.key == key) ≤ 1 →
      (feeds key <|> feedOf demands key).toList.length =
        (feeds key).toList.length + demands.countP fun demand ↦ demand.key == key := by
    intro key hle
    cases hfeed : feeds key with
    | none =>
      rw [hfeed, Option.toList_none, List.length_nil] at hle
      change (feedOf demands key).toList.length = _
      rw [length_toList_feedOf, Option.toList_none, List.length_nil]
      omega
    | some feed =>
      rw [hfeed, Option.toList_some, List.length_singleton] at hle
      change (some feed).toList.length = _
      rw [Option.toList_some, List.length_singleton]
      omega
  constructor
  · intro h
    have hdemands : Spares fields feeds demands := fun key hkey ↦ by
      have := h key hkey
      rw [List.countP_append] at this
      omega
    refine ⟨hdemands, fun key hkey ↦ ?_⟩
    have := h key hkey
    rw [List.countP_append] at this
    rw [hlength key (hdemands key hkey)]
    omega
  · rintro ⟨hdemands, hmore⟩ key hkey
    have := hmore key hkey
    rw [hlength key (hdemands key hkey)] at this
    rw [List.countP_append]
    omega

theorem spares_within {enclosure : Enclosure} {fields : List FieldDescriptor}
    {feeds : String → Option LengthFeed} :
    Spares fields feeds (demands.map (Demand.within enclosure)) ↔ Spares fields feeds demands := by
  simp only [Spares, countP_key_within]

@[simp] theorem spares_nil {fields : List FieldDescriptor} {feeds : String → Option LengthFeed} :
    Spares fields feeds [] := by
  intro key _
  cases feeds key <;> simp

@[simp] theorem fresh_nil : Fresh [] frames := fun _ _ ↦ spares_nil

theorem fresh_cons {frame : Binder} : Fresh demands (frame :: frames) ↔
    Spares frame.enclosure.fields frame.feeds demands ∧ Fresh demands frames :=
  List.forall_mem_cons

theorem fresh_within {enclosure : Enclosure} :
    Fresh (demands.map (Demand.within enclosure)) frames ↔ Fresh demands frames := by
  simp only [Fresh, spares_within]

theorem fresh_append (demands more : List Demand) (frames : List Binder) :
    Fresh (demands ++ more) frames ↔
    Fresh demands frames ∧ Fresh more (after demands frames) := by
  induction frames generalizing demands more with
  | nil => simp [Fresh, after]
  | cons frame rest ih =>
    have hrest := ih (demands.map (Demand.within frame.enclosure))
      (more.map (Demand.within frame.enclosure))
    rw [← List.map_append, fresh_within, fresh_within, fresh_within] at hrest
    have hframe := spares_append (demands.map (Demand.within frame.enclosure)) more
      frame.enclosure.fields frame.feeds
    simp only [Spares, List.countP_append, countP_key_within] at hframe
    simp only [fresh_cons, after, hrest, Spares, List.countP_append, hframe, and_assoc,
      and_left_comm]

/-- A record has given away each of its lengths once if it has given away none twice and all of
them. -/
theorem spares_and_fed_iff {fields : List FieldDescriptor} :
    (Spares fields (fun _ ↦ none) demands ∧
      ∀ field ∈ fields, ∀ key, field.carries key → feedOf demands key ≠ none) ↔
      ∀ field ∈ fields, ∀ key, field.carries key →
        demands.countP (fun demand ↦ demand.key == key) = 1 := by
  have hspares : Spares fields (fun _ ↦ none) demands ↔ ∀ field ∈ fields, ∀ key,
      field.carries key → demands.countP (fun demand ↦ demand.key == key) ≤ 1 := by
    simp only [Spares, Option.toList_none, List.length_nil, Nat.zero_add, ne_eq,
      List.filter_eq_nil_iff, not_forall, not_not]
    constructor
    · exact fun h field hmem key hcarries ↦ h key ⟨field, hmem, hcarries⟩
    · rintro h key ⟨field, hmem, hcarries⟩
      exact h field hmem key hcarries
  simp only [hspares, feedOf_ne_none_iff]
  constructor
  · rintro ⟨hle, hge⟩ field hmem key hcarries
    exact Nat.le_antisymm (hle field hmem key hcarries) (hge field hmem key hcarries)
  · intro h
    exact ⟨fun field hmem key hcarries ↦ Nat.le_of_eq (h field hmem key hcarries),
      fun field hmem key hcarries ↦ Nat.le_of_eq (h field hmem key hcarries).symm⟩

end Binder

/-! ## Size policies -/

section Policies

variable {frames : List Binder} {outside : List Scope}

theorem Binder.fresh_singleton_iff {key : String} {measure : Measure} :
    Binder.Fresh [⟨[], key, measure⟩] frames ↔
      ∀ frame ∈ frames, frame.enclosure.carriers key ≠ [] → frame.feeds key = none := by
  refine forall_congr' fun frame ↦ forall_congr' fun _ ↦ ?_
  constructor
  · intro h hcarries
    have := h key hcarries
    cases hfeed : frame.feeds key with
    | none => rfl
    | some feed => simp [hfeed] at this
  · intro h other hother
    by_cases hkey : key = other
    · subst hkey
      simp [h hother]
    · cases frame.feeds other <;> simp [hkey]

theorem SizePolicy.compile_eq_ok_iff (houtside : outside.takeWhile Scope.isRecord = [])
    {policy : SizePolicy String} {measure : Measure}
    {result : SizePolicy LengthSource × List Scope} :
    policy.compile (frames.map Binder.scope ++ outside) measure = .ok result ↔
      (∀ demand ∈ policy.demands measure,
        Lends demand.key (demand.chain ++ frames.map Binder.enclosure)) ∧
      Binder.Fresh (policy.demands measure) frames ∧
      result = (policy.map (.from (frames.map Binder.enclosure)),
        (Binder.after (policy.demands measure) frames).map Binder.scope ++ outside) := by
  have hbind : ∀ (key : String) (make : LengthSource → SizePolicy LengthSource),
      (∃ source scopes, Scope.bind (frames.map Binder.scope ++ outside) key measure =
        .ok (source, scopes) ∧ (make source, scopes) = result) ↔
      Lends key (frames.map Binder.enclosure) ∧ Binder.Fresh [⟨[], key, measure⟩] frames ∧
      result = (make (.from (frames.map Binder.enclosure) key),
        (Binder.after [⟨[], key, measure⟩] frames).map Binder.scope ++ outside) := by
    intro key make
    simp only [Scope.bind_eq_ok_iff houtside, Binder.fresh_singleton_iff, Prod.mk.injEq]
    constructor
    · rintro ⟨_, _, ⟨hlends, hfresh, rfl, rfl⟩, rfl⟩
      exact ⟨hlends, hfresh, rfl⟩
    · rintro ⟨hlends, hfresh, rfl⟩
      exact ⟨_, _, ⟨hlends, hfresh, rfl, rfl⟩, rfl⟩
  cases policy with
  | fixed slots => simp [compile, demands, key?, map, eq_comm]
  | keyed key =>
    simp only [compile, bind_eq_ok_iff, Prod.exists, pure_eq_ok_iff, hbind key .keyed]
    simp [demands, key?, map]
  | padded key slots =>
    simp only [compile, bind_eq_ok_iff, Prod.exists, pure_eq_ok_iff, hbind key (.padded · slots)]
    simp [demands, key?, map]

theorem TextSize.compile_eq_ok_iff (houtside : outside.takeWhile Scope.isRecord = [])
    {size : TextSize String} {encoding : Encoding} {result : TextSize LengthSource × List Scope} :
    size.compile (frames.map Binder.scope ++ outside) encoding = .ok result ↔
      (∀ demand ∈ size.demands encoding,
        Lends demand.key (demand.chain ++ frames.map Binder.enclosure)) ∧
      Binder.Fresh (size.demands encoding) frames ∧
      result = (size.map (.from (frames.map Binder.enclosure)),
        (Binder.after (size.demands encoding) frames).map Binder.scope ++ outside) := by
  cases size with
  | nullTerminated => simp [compile, demands, map, eq_comm]
  | sized policy =>
    simp only [compile, bind_eq_ok_iff, policy.compile_eq_ok_iff houtside, pure_eq_ok_iff]
    constructor
    · rintro ⟨_, ⟨hlends, hfresh, rfl⟩, rfl⟩
      exact ⟨hlends, hfresh, rfl⟩
    · rintro ⟨hlends, hfresh, rfl⟩
      exact ⟨_, ⟨hlends, hfresh, rfl⟩, rfl⟩

end Policies

/-! ## Fields -/

section Fields

variable {frames : List Binder} {outside : List Scope}

/-- What compiling a descriptor takes and gives. -/
def Descriptor.CompilesAs (descriptor : Descriptor) : Prop :=
  ∀ (frames : List Binder) (outside : List Scope) (result : Operation × List Scope),
    outside.takeWhile Scope.isRecord = [] →
      (descriptor.compile (frames.map Binder.scope ++ outside) = .ok result ↔
        descriptor.Settled ∧
        (∀ demand ∈ descriptor.demands,
          Lends demand.key (demand.chain ++ frames.map Binder.enclosure)) ∧
        Binder.Fresh descriptor.demands frames ∧
        result = (descriptor.operation (frames.map Binder.enclosure),
          (Binder.after descriptor.demands frames).map Binder.scope ++ outside))

/-- The field at hand after some fields of a record. -/
def FieldDescriptor.memberAfter (member : Option (String × Nat)) (fields : List FieldDescriptor) :
    Option (String × Nat) :=
  fields.foldl (fun member field ↦
    if field.serialize then some (field.name, field.order) else member) member

namespace FieldDescriptor

variable {typeName : String} {fields rest : List FieldDescriptor} {field : FieldDescriptor}

theorem compileAll_cons_of_not_serialize (h : field.serialize = false) (scopes : List Scope) :
    compileAll typeName scopes (field :: rest) = compileAll typeName scopes rest := by
  obtain ⟨name, order, descriptor, serialize, lengthOf, padAfter⟩ := field
  cases h
  rfl

theorem compileAll_cons_of_serialize (h : field.serialize) (scopes : List Scope) :
    compileAll typeName scopes (field :: rest) = do
      let (operation, scopes) ←
        (field.descriptor.compile (Scope.enterMember field.name field.order scopes)).mapError
          (LayoutFailure.locate typeName field.name)
      let (plans, scopes) ← compileAll typeName scopes rest
      return (⟨field.name, operation, field.lengthOf, none, field.padAfter⟩ :: plans, scopes) := by
  obtain ⟨name, order, descriptor, serialize, lengthOf, padAfter⟩ := field
  cases h
  rfl

theorem compileAll_eq_ok_iff (houtside : outside.takeWhile Scope.isRecord = [])
    (frames : List Binder) (feeds : String → Option LengthFeed) (member : Option (String × Nat))
    (hrest : ∀ field ∈ rest, field.descriptor.CompilesAs) (result : List FieldPlan × List Scope) :
    compileAll typeName (.record typeName (Carrier.ofFields fields feeds) member ::
      (frames.map Binder.scope ++ outside)) rest = .ok result ↔
      (∀ field ∈ rest, field.serialize → field.descriptor.Settled) ∧
      (∀ demand ∈ demandsAll typeName fields rest,
        Lends demand.key (demand.chain ++ frames.map Binder.enclosure)) ∧
      Binder.Spares fields feeds (demandsAll typeName fields rest) ∧
      Binder.Fresh (demandsAll typeName fields rest) frames ∧
      result = (operations typeName fields (frames.map Binder.enclosure) rest,
        .record typeName (Carrier.ofFields fields fun key ↦
          feeds key <|> feedOf (demandsAll typeName fields rest) key)
          (memberAfter member rest) ::
          ((Binder.after (demandsAll typeName fields rest) frames).map Binder.scope ++
            outside)) := by
  induction rest generalizing frames feeds member result with
  | nil =>
    have hfeeds : (fun key ↦ feeds key <|> feedOf [] key) = feeds := by
      funext key
      simp [feedOf]
    simp only [compileAll, demandsAll, operations, hfeeds, Binder.after_nil, Except.ok.injEq]
    simpa [memberAfter] using eq_comm
  | cons field rest ih =>
    obtain ⟨hfield, hrest⟩ := List.forall_mem_cons.1 hrest
    rw [demandsAll_cons, operations_cons, memberAfter, List.foldl_cons, ← memberAfter]
    cases hserialize : field.serialize with
    | false =>
      rw [compileAll_cons_of_not_serialize hserialize, ih _ _ _ hrest]
      simp [hserialize]
    | true =>
      have hscopes : Scope.enterMember field.name field.order (.record typeName
          (Carrier.ofFields fields feeds) member :: (frames.map Binder.scope ++ outside)) =
          (⟨⟨typeName, fields, field⟩, feeds⟩ :: frames).map Binder.scope ++ outside := rfl
      simp only [compileAll_cons_of_serialize hserialize, hscopes, bind_eq_ok_iff,
        mapError_eq_ok_iff, hfield _ _ _ houtside, pure_eq_ok_iff, if_true]
      rw [List.forall_mem_cons, List.forall_mem_append, List.forall_mem_map, Binder.spares_append,
        Binder.fresh_append, Binder.after_append, Binder.spares_within, Binder.fresh_within]
      have hnext := ih (Binder.after (field.descriptor.demands.map
        (Demand.within ⟨typeName, fields, field⟩)) frames)
        (fun key ↦ feeds key <|> feedOf (field.descriptor.demands.map
          (Demand.within ⟨typeName, fields, field⟩)) key) (some (field.name, field.order)) hrest
      simp only [Binder.map_enclosure_after, ← orElse_feedOf_append] at hnext
      constructor
      · rintro ⟨_, ⟨hsettled, hlends, hfresh, rfl⟩, _, hall, rfl⟩
        obtain ⟨hsettled', hlends', hspares', hfresh', rfl⟩ := (hnext _).1 hall
        obtain ⟨hspares, hfresh⟩ := Binder.fresh_cons.1 hfresh
        refine ⟨⟨fun _ ↦ hsettled, hsettled'⟩, ⟨fun demand hmem ↦ ?_, hlends'⟩,
          ⟨hspares, hspares'⟩, ⟨hfresh, hfresh'⟩, ?_⟩
        · have := hlends demand hmem
          simpa [Demand.within] using this
        · simp
      · rintro ⟨⟨hsettled, hsettled'⟩, ⟨hlends, hlends'⟩, ⟨hspares, hspares'⟩,
          ⟨hfresh, hfresh'⟩, rfl⟩
        refine ⟨_, ⟨hsettled hserialize, fun demand hmem ↦ ?_,
          Binder.fresh_cons.2 ⟨hspares, hfresh⟩, rfl⟩, _,
          (hnext _).2 ⟨hsettled', hlends', hspares', hfresh', rfl⟩, ?_⟩
        · simpa [Demand.within] using hlends demand hmem
        · simp

end FieldDescriptor

end Fields

/-! ## Records and everything else -/

namespace Descriptor

variable {descriptor : Descriptor}

theorem settled_iff : descriptor.Settled ↔
    (∀ element ∈ descriptor.element?, element.Settled ∧
      ∀ demand ∈ element.demands, Lends demand.key demand.chain) ∧
    (∀ field ∈ descriptor.fields, field.serialize → field.descriptor.Settled) ∧
    ∀ field ∈ descriptor.fields, ∀ key, field.carries key →
      descriptor.demands.countP (fun demand ↦ demand.key == key) = 1 := by
  constructor
  · rintro ⟨helements, hlent, hfields, htaken⟩
    exact ⟨fun element hmem ↦ ⟨helements element hmem, hlent element hmem⟩, hfields, htaken⟩
  · rintro ⟨helements, hfields, htaken⟩
    exact ⟨fun element hmem ↦ (helements element hmem).1, fun element hmem ↦
      (helements element hmem).2, hfields, htaken⟩

/-- There is nothing to settle without an element and fields. -/
theorem settled_of_leaf (helement : descriptor.element? = none) (hfields : descriptor.fields = []) :
    descriptor.Settled := by
  rw [settled_iff, helement, hfields]
  simp

theorem settled_list_iff {element : Descriptor} {size : SizePolicy String} {byteOrder : ByteOrder}
    {hasFixedSize : Bool} {minSize : UInt64} :
    Settled ⟨.list element size, byteOrder, hasFixedSize, minSize⟩ ↔ element.Settled ∧
      ∀ demand ∈ element.demands, Lends demand.key demand.chain := by
  rw [settled_iff]
  simp [element?, fields]

theorem settled_record_iff {name : String} {fields : List FieldDescriptor} {byteOrder : ByteOrder}
    {hasFixedSize : Bool} {minSize : UInt64} :
    Settled ⟨.record name fields, byteOrder, hasFixedSize, minSize⟩ ↔
      (∀ field ∈ fields, field.serialize → field.descriptor.Settled) ∧
      ∀ field ∈ fields, ∀ key, field.carries key →
        (FieldDescriptor.demandsAll name fields fields).countP
          (fun demand ↦ demand.key == key) = 1 := by
  rw [settled_iff]
  simp [element?, Descriptor.fields, demands, DescriptorKind.demands]

end Descriptor

theorem Scope.close_eq_ok_iff {typeName : String} {fields : List FieldDescriptor}
    {feeds : String → Option LengthFeed} {member : Option (String × Nat)} {carriers : List Carrier} :
    Scope.close (.record typeName (Carrier.ofFields fields feeds) member) = .ok carriers ↔
      (∀ field ∈ fields, ∀ key, field.carries key → feeds key ≠ none) ∧
      Carrier.ofFields fields feeds = carriers := by
  have hfeeds : (∀ carrier ∈ Carrier.ofFields fields feeds, carrier.feed ≠ none) ↔
      ∀ field ∈ fields, ∀ key, field.carries key → feeds key ≠ none := by
    constructor
    · intro h field hmem key hcarries
      have := FieldDescriptor.carries_iff.1 hcarries
      exact h ⟨key, field.name, field.order, feeds key⟩
        (List.mem_filterMap.2 ⟨field, hmem, by simp [this]⟩)
    · intro h carrier hmem
      obtain ⟨field, hfield, hcarrier⟩ := List.mem_filterMap.1 hmem
      split at hcarrier
      · next hserialize =>
        obtain ⟨key, hkey, rfl⟩ := Option.map_eq_some_iff.1 hcarrier
        exact h field hfield key (FieldDescriptor.carries_iff.2 ⟨hserialize, hkey⟩)
      · cases hcarrier
  rw [close, ← hfeeds]
  split
  · next carrier hfind =>
    have hnone : carrier.feed = none := by simpa using List.find?_some hfind
    simp only [reduceCtorEq, false_iff, not_and]
    exact fun h ↦ (h carrier (List.mem_of_find?_eq_some hfind) hnone).elim
  · next hfind =>
    rw [List.find?_eq_none] at hfind
    simp only [Except.ok.injEq]
    exact (and_iff_right fun carrier hmem hnone ↦ hfind carrier hmem (by simp [hnone])).symm

theorem Descriptor.compilesAs (descriptor : Descriptor) : descriptor.CompilesAs := by
  induction descriptor using Descriptor.induction with
  | step descriptor ihelement ihfields =>
    intro frames outside result houtside
    obtain ⟨kind, byteOrder, hasFixedSize, minSize⟩ := descriptor
    cases kind with
    | text encoding size =>
      rw [and_iff_right (settled_of_leaf rfl rfl)]
      simp only [compile, DescriptorKind.compile, bind_eq_ok_iff, mapError_eq_ok_iff,
        size.compile_eq_ok_iff houtside, pure_eq_ok_iff]
      constructor
      · rintro ⟨_, ⟨hlends, hfresh, rfl⟩, rfl⟩
        exact ⟨hlends, hfresh, rfl⟩
      · rintro ⟨hlends, hfresh, rfl⟩
        exact ⟨_, ⟨hlends, hfresh, rfl⟩, rfl⟩
    | list element size =>
      have helement := fun scopes result ↦
        ihelement element rfl [] (.element :: scopes) result rfl
      simp only [List.map_nil, List.nil_append, List.append_nil] at helement
      simp only [compile, DescriptorKind.compile, bind_eq_ok_iff, mapError_eq_ok_iff,
        size.compile_eq_ok_iff houtside, pure_eq_ok_iff, helement, settled_list_iff]
      constructor
      · rintro ⟨_, ⟨hlends, hfresh, rfl⟩, _, ⟨hsettled, hlent, -, rfl⟩, rfl⟩
        exact ⟨⟨hsettled, hlent⟩, hlends, hfresh, rfl⟩
      · rintro ⟨⟨hsettled, hlent⟩, hlends, hfresh, rfl⟩
        exact ⟨_, ⟨hlends, hfresh, rfl⟩, _, ⟨hsettled, hlent, by simp [Binder.Fresh], rfl⟩, rfl⟩
    | record name fields =>
      have hfields : ∀ result, FieldDescriptor.compileAll name (.record name
          (Carrier.ofFields fields fun _ ↦ none) none :: (frames.map Binder.scope ++ outside))
          fields = .ok result ↔ _ :=
        FieldDescriptor.compileAll_eq_ok_iff houtside frames (fun _ ↦ none) none ihfields
      have hscope : Scope.ofRecord name fields =
          .record name (Carrier.ofFields fields fun _ ↦ none) none := rfl
      simp only [compile, DescriptorKind.compile, bind_eq_ok_iff, mapError_eq_ok_iff, hscope,
        hfields, pure_eq_ok_iff, settled_record_iff, RecordPlan.assemble]
      constructor
      · rintro ⟨_, ⟨hsettled, hlends, hspares, hfresh, rfl⟩, _, ⟨_, hclose, rfl⟩, rfl⟩
        rw [List.headD_cons, Scope.close_eq_ok_iff] at hclose
        obtain ⟨hfeeds, rfl⟩ := hclose
        exact ⟨⟨hsettled, Binder.spares_and_fed_iff.1 ⟨hspares, hfeeds⟩⟩, hlends, hfresh, rfl⟩
      · rintro ⟨⟨hsettled, hcount⟩, hlends, hfresh, rfl⟩
        obtain ⟨hspares, hfeeds⟩ := Binder.spares_and_fed_iff.2 hcount
        exact ⟨_, ⟨hsettled, hlends, hspares, hfresh, rfl⟩, _,
          ⟨_, Scope.close_eq_ok_iff.2 ⟨hfeeds, rfl⟩, rfl⟩, rfl⟩
    | _ =>
      rw [and_iff_right (settled_of_leaf rfl rfl)]
      simp [compile, DescriptorKind.compile, demands, DescriptorKind.demands, operation,
        DescriptorKind.operation, eq_comm]

end WireFormat
