import WireFormat.Proofs.Format.RoundTrip
import WireFormat.Proofs.Order.Describe

/-!
# Plans in either byte order

Lengths are matched, and defaults found, whatever the byte orders are.

* `Descriptor.default?_inOrder`, `FieldDescriptor.feedOf_inOrder` — what a plan takes from a
  descriptor apart from byte orders;
* `Schema.ofLayout_inOrder_cases` — a neutral layout compiles in one order as it does in the other.
-/

namespace WireFormat

variable (order other : ByteOrder)

/-! ## Defaults -/

mutual

theorem Descriptor.default?_inOrder :
    (descriptor : Descriptor) → (descriptor.inOrder order).default? = descriptor.default?
  | ⟨kind, _, _, _⟩ => kind.default?_inOrder

theorem DescriptorKind.default?_inOrder :
    (kind : DescriptorKind) → (kind.inOrder order).default? = kind.default?
  | .scalar _ | .boolean _ | .enum _ _ | .bits _ _ _ _ | .text _ _ | .list _ _ | .custom _ _ => rfl
  | .record _ fields =>
    congrArg (Option.map Value.ofMembers) (FieldDescriptor.defaults?_allInOrder fields)

theorem FieldDescriptor.defaults?_allInOrder : (fields : List FieldDescriptor) →
    FieldDescriptor.defaults? (FieldDescriptor.allInOrder order fields) =
      FieldDescriptor.defaults? fields
  | [] => rfl
  | ⟨_, _, descriptor, _, _, _⟩ :: rest => by
    rw [FieldDescriptor.allInOrder, FieldDescriptor.defaults?, FieldDescriptor.defaults?,
      descriptor.default?_inOrder, FieldDescriptor.defaults?_allInOrder rest]

end

/-! ## Lengths -/

/-- The key of a length that is asked for, with what takes it. -/
def Demand.core (demand : Demand) : String × LengthFeed := (demand.key, demand.feed)

theorem Demand.core_within (enclosure : Enclosure) (demand : Demand) :
    (demand.within enclosure).core =
      (demand.core.1, ⟨enclosure.member.name :: demand.core.2.path, demand.core.2.measure⟩) := by
  simp [core, feed, path, within]

theorem feedOf_eq (demands : List Demand) (key : String) : feedOf demands key =
    ((demands.map Demand.core).find? fun entry ↦ entry.1 == key).map Prod.snd := by
  rw [feedOf, List.find?_map, Option.map_map]
  rfl

mutual

theorem Descriptor.map_core_demands_inOrder : (descriptor : Descriptor) →
    (descriptor.inOrder order).demands.map Demand.core = descriptor.demands.map Demand.core
  | ⟨kind, _, _, _⟩ => kind.map_core_demands_inOrder

theorem DescriptorKind.map_core_demands_inOrder : (kind : DescriptorKind) →
    (kind.inOrder order).demands.map Demand.core = kind.demands.map Demand.core
  | .scalar _ | .boolean _ | .enum _ _ | .bits _ _ _ _ | .text _ _ | .list _ _ | .custom _ _ => rfl
  | .record name fields => FieldDescriptor.map_core_demandsAll_inOrder name _ fields fields

theorem FieldDescriptor.map_core_demandsAll_inOrder (typeName : String)
    (all all' : List FieldDescriptor) : (fields : List FieldDescriptor) →
      (FieldDescriptor.demandsAll typeName all
        (FieldDescriptor.allInOrder order fields)).map Demand.core =
          (FieldDescriptor.demandsAll typeName all' fields).map Demand.core
  | [] => rfl
  | ⟨name, _, descriptor, serialize, _, _⟩ :: rest => by
    have hrest := FieldDescriptor.map_core_demandsAll_inOrder typeName all all' rest
    have hfield := descriptor.map_core_demands_inOrder
    rw [FieldDescriptor.allInOrder, FieldDescriptor.demandsAll, FieldDescriptor.demandsAll,
      List.map_append, List.map_append, hrest]
    cases serialize with
    | false => rfl
    | true =>
      have hwithin (member : FieldDescriptor) (all demands) (h : member.name = name) :
          (List.map (Demand.within ⟨typeName, all, member⟩) demands).map Demand.core =
            (demands.map Demand.core).map fun core ↦ (core.1, ⟨name :: core.2.path, core.2.measure⟩) := by
        simp [Demand.core_within, h]
      rw [if_pos rfl, if_pos rfl, hwithin _ _ _ rfl, hwithin _ _ _ rfl, hfield]

end

/-- What takes a length is the same in either order. -/
theorem FieldDescriptor.feedOf_inOrder (typeName : String) (fields : List FieldDescriptor)
    (key : String) :
    feedOf (FieldDescriptor.demandsAll typeName (FieldDescriptor.allInOrder order fields)
      (FieldDescriptor.allInOrder order fields)) key =
        feedOf (FieldDescriptor.demandsAll typeName fields fields) key := by
  rw [feedOf_eq, feedOf_eq, FieldDescriptor.map_core_demandsAll_inOrder order typeName _ fields]

/-! ## Compiling -/

/-- Two runs that end alike, go on from where they end and do the same there, end alike again. -/
theorem map_snd_bind_congr {ε σ α β γ : Type} {x y : Except ε (α × σ)} {f g : α × σ → Except ε β}
    {p : β → γ} (h : x.map Prod.snd = y.map Prod.snd)
    (hsteps : ∀ a b state, (f (a, state)).map p = (g (b, state)).map p) :
    (x >>= f).map p = (y >>= g).map p := by
  rw [bind_map_eq, bind_map_eq]
  rcases x with e | ⟨a, state⟩ <;> rcases y with e' | ⟨b, state'⟩ <;> cases h
  · rfl
  · exact hsteps a b state

theorem map_mapError_congr {ε ε' α β : Type} {x y : Except ε α} {p : α → β} (f : ε → ε')
    (h : x.map p = y.map p) : (x.mapError f).map p = (y.mapError f).map p := by
  rw [← mapError_map, ← mapError_map, h]

theorem Scope.ofRecord_inOrder (typeName : String) (fields : List FieldDescriptor) :
    Scope.ofRecord typeName (FieldDescriptor.allInOrder order fields) =
      Scope.ofRecord typeName fields := by
  rw [FieldDescriptor.allInOrder_eq, ofRecord, ofRecord, List.filterMap_map]
  rfl

/-- Whether a record can be put together is up to its lengths. -/
theorem RecordPlan.assemble_eq (name : String) (fields : List FieldDescriptor)
    (plans : List FieldPlan) (scopes : List Scope) : assemble name fields plans scopes =
      (scopes.headD .element).close.map fun carriers ↦
        ⟨name, FieldPlan.addFeeds carriers plans, FieldDescriptor.skipped fields⟩ := by
  rw [assemble]
  cases (scopes.headD .element).close <;> rfl

mutual

theorem Descriptor.map_snd_compile_inOrder (scopes : List Scope) : (descriptor : Descriptor) →
    ((descriptor.inOrder order).compile scopes).map Prod.snd =
      (descriptor.compile scopes).map Prod.snd
  | ⟨kind, byteOrder, _, _⟩ => kind.map_snd_compile_inOrder scopes byteOrder

theorem DescriptorKind.map_snd_compile_inOrder (scopes : List Scope) (byteOrder : ByteOrder) :
    (kind : DescriptorKind) → ((kind.inOrder order).compile scopes order).map Prod.snd =
      (kind.compile scopes byteOrder).map Prod.snd
  | .scalar _ | .boolean _ | .enum _ _ | .bits _ _ _ _ | .text _ _ | .custom _ _ => rfl
  | .list element size => by
    rw [DescriptorKind.inOrder, DescriptorKind.compile, DescriptorKind.compile, bind_map_eq,
      bind_map_eq]
    refine congrArg _ (funext fun bound ↦ ?_)
    exact map_snd_bind_congr (element.map_snd_compile_inOrder _) fun _ _ _ ↦ rfl
  | .record name fields => by
    rw [DescriptorKind.inOrder, DescriptorKind.compile, DescriptorKind.compile,
      Scope.ofRecord_inOrder]
    refine map_snd_bind_congr (map_mapError_congr _
      (FieldDescriptor.map_snd_compileAll_inOrder name _ fields)) fun plans plans' inner ↦ ?_
    dsimp only
    rw [RecordPlan.assemble_eq, RecordPlan.assemble_eq]
    cases (inner.headD .element).close <;> rfl

theorem FieldDescriptor.map_snd_compileAll_inOrder (typeName : String) (scopes : List Scope) :
    (fields : List FieldDescriptor) →
      (FieldDescriptor.compileAll typeName scopes
        (FieldDescriptor.allInOrder order fields)).map Prod.snd =
          (FieldDescriptor.compileAll typeName scopes fields).map Prod.snd
  | [] => rfl
  | ⟨name, place, descriptor, serialize, _, _⟩ :: rest => by
    rw [FieldDescriptor.allInOrder, FieldDescriptor.compileAll, FieldDescriptor.compileAll]
    cases serialize with
    | false => exact FieldDescriptor.map_snd_compileAll_inOrder typeName scopes rest
    | true =>
      refine map_snd_bind_congr (map_mapError_congr _
        (descriptor.map_snd_compile_inOrder _)) fun operation operation' scopes ↦ ?_
      exact map_snd_bind_congr (FieldDescriptor.map_snd_compileAll_inOrder typeName scopes rest)
        fun _ _ _ ↦ rfl

end

/-- A descriptor has a plan in one order exactly if it has one in the other. -/
theorem Plan.map_ofDescriptor_inOrder {α : Type} (a : α) (descriptor : Descriptor) :
    (ofDescriptor (descriptor.inOrder order)).map (fun _ ↦ a) =
      (ofDescriptor descriptor).map fun _ ↦ a := by
  obtain ⟨kind, byteOrder, hasFixedSize, minSize⟩ := descriptor
  cases kind with
  | record name fields =>
    change (RecordPlan.ofFields name _ >>= _).map _ = (RecordPlan.ofFields name fields >>= _).map _
    rw [RecordPlan.ofFields, RecordPlan.ofFields, Scope.ofRecord_inOrder, bind_assoc, bind_assoc]
    refine map_snd_bind_congr (FieldDescriptor.map_snd_compileAll_inOrder order name _ fields) ?_
    intro plans plans' inner
    dsimp only
    rw [RecordPlan.assemble_eq, RecordPlan.assemble_eq]
    cases (inner.headD .element).close <;> rfl
  | _ => rfl

/-- A layout with no byte order declared inside compiles in one order as it does in the other: it is
refused for the same reason, or its descriptors differ in the order only. -/
theorem Schema.map_ofLayout_inOrder {layout : Layout} (h : layout.IsNeutral) :
    (ofLayout (layout.inOrder order)).map Schema.descriptor =
      (ofLayout (layout.inOrder other)).map fun schema ↦ schema.descriptor.inOrder order := by
  rw [ofLayout, ofLayout, layout.describe_inOrder order other h, map_bind_eq, bind_map_eq,
    bind_map_eq]
  refine congrArg _ (funext fun descriptor ↦ ?_)
  calc (Plan.ofDescriptor (descriptor.inOrder order) >>= fun plan ↦
        return (⟨layout.name, descriptor.inOrder order, plan⟩ : Schema)).map Schema.descriptor
      = (Plan.ofDescriptor (descriptor.inOrder order)).map fun _ ↦ descriptor.inOrder order := by
        cases Plan.ofDescriptor (descriptor.inOrder order) <;> rfl
    _ = (Plan.ofDescriptor descriptor).map fun _ ↦ descriptor.inOrder order :=
        Plan.map_ofDescriptor_inOrder order _ descriptor
    _ = (Plan.ofDescriptor descriptor >>= fun plan ↦
        return (⟨layout.name, descriptor, plan⟩ : Schema)).map fun schema ↦
          schema.descriptor.inOrder order := by
        cases Plan.ofDescriptor descriptor <;> rfl

/-- What is compiled in an order is in this order. -/
theorem Schema.descriptor_eq_inOrder {layout : Layout} (h : layout.IsNeutral) {schema : Schema}
    (hschema : ofLayout (layout.inOrder order) = .ok schema) :
    schema.descriptor = schema.descriptor.inOrder order := by
  have hsame := map_ofLayout_inOrder order order h
  rw [hschema] at hsame
  exact Except.ok.inj hsame

/-- In two orders, a layout compiles to descriptors that differ in the order only, or to the same
error. -/
theorem Schema.ofLayout_inOrder_cases {layout : Layout} (h : layout.IsNeutral) :
    (∃ error, ofLayout (layout.inOrder other) = .error error ∧
      ofLayout (layout.inOrder order) = .error error) ∨
    ∃ schema schema', ofLayout (layout.inOrder other) = .ok schema ∧
      ofLayout (layout.inOrder order) = .ok schema' ∧
      schema'.descriptor = schema.descriptor.inOrder order := by
  have hmap := map_ofLayout_inOrder order other h
  cases hother : ofLayout (layout.inOrder other) with
  | error error =>
    rw [hother] at hmap
    cases horder : ofLayout (layout.inOrder order) with
    | error error' =>
      rw [horder] at hmap
      cases hmap
      exact .inl ⟨error, rfl, rfl⟩
    | ok schema' =>
      rw [horder] at hmap
      cases hmap
  | ok schema =>
    rw [hother] at hmap
    cases horder : ofLayout (layout.inOrder order) with
    | error error' =>
      rw [horder] at hmap
      cases hmap
    | ok schema' =>
      rw [horder] at hmap
      exact .inr ⟨schema, schema', rfl, rfl, Except.ok.inj hmap⟩

end WireFormat
