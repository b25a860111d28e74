import Mathlib.Logic.Relation
import WireFormat.Definitions.Resolve

/-!
# Definitions put in place of their names

What a name stands for, without regard to the way in which it is found out.

* `Definitions.Uses` — the graph of record types, by the names in their fields;
* `Definitions.Resolvable` — every name that is reached is defined, and none leads back to itself;
* `Definitions.Unfolds` — a shape with definitions in place of all names, of which there is one at
  most;
* `Definitions.Unfolds.resolvable` — only what is resolvable can be unfolded.
-/

namespace WireFormat

open Relation (ReflTransGen TransGen)

/-! ## Names -/

/-- A name in a defined shape, with what it is to be the name of. -/
inductive Reference where
  | enum (name : String)
  | record (name : String)
deriving DecidableEq, Repr

/-- The name itself. -/
def Reference.name : Reference → String
  | enum name | record name => name

/-- The one name in a shape, unless the shape says all by itself. -/
def ShapeDef.reference? : ShapeDef → Option Reference
  | .scalar _ | .text => none
  | .enum name => some (.enum name)
  | .list ⟨shape, _⟩ => shape.reference?
  | .record name => some (.record name)

/-- An item is the last one of its name. -/
def IsLast {α : Type} (nameOf : α → String) (name : String) (items : List α) (item : α) : Prop :=
  nameOf item = name ∧
    ∃ before after, items = before ++ item :: after ∧ ∀ other ∈ after, nameOf other ≠ name

/-- The last item of a name is the first one from behind. -/
theorem isLast_iff {α : Type} {nameOf : α → String} {name : String} {items : List α} {item : α} :
    IsLast nameOf name items item ↔
      items.reverse.find? (fun other ↦ nameOf other == name) = some item := by
  rw [List.find?_eq_some_iff_append, beq_iff_eq, IsLast]
  refine and_congr_right fun _ ↦ ⟨?_, ?_⟩
  · rintro ⟨before, after, rfl, hafter⟩
    exact ⟨after.reverse, before.reverse, by simp, by simpa using hafter⟩
  · rintro ⟨after, before, hitems, hafter⟩
    refine ⟨before.reverse, after.reverse, ?_, by simpa using hafter⟩
    rw [← List.reverse_reverse items, hitems]
    simp

theorem IsLast.unique {α : Type} {nameOf : α → String} {name : String} {items : List α}
    {item item' : α} (h : IsLast nameOf name items item) (h' : IsLast nameOf name items item') :
    item = item' :=
  Option.some.inj ((isLast_iff.1 h).symm.trans (isLast_iff.1 h'))

namespace Definitions

variable {definitions : Definitions} {name : String}

/-- A name is that of a definition. -/
def Defines (definitions : Definitions) : Reference → Prop
  | .enum name => ∃ definition, IsLast EnumDef.name name definitions.enums definition
  | .record name => ∃ type, IsLast TypeDef.name name definitions.types type

/-- A name stands in a field of a record type.  If several record types have one name, the last
counts. -/
def Mentions (definitions : Definitions) (name : String) (reference : Reference) : Prop :=
  ∃ type, IsLast TypeDef.name name definitions.types type ∧
    ∃ field ∈ type.fields, field.shape.reference? = some reference

/-- A record type has a field with records of another in it. -/
def Uses (definitions : Definitions) (name other : String) : Prop :=
  definitions.Mentions name (.record other)

/-- Everything that a record type leads to is defined, and nothing there leads back to itself. -/
structure Resolvable (definitions : Definitions) (name : String) : Prop where
  defined : definitions.Defines (.record name)
  complete : ∀ other, ReflTransGen definitions.Uses name other →
    ∀ reference, definitions.Mentions other reference → definitions.Defines reference
  acyclic : ∀ other, ReflTransGen definitions.Uses name other →
    ¬ TransGen definitions.Uses other other

theorem findType?_eq_some_iff {type : TypeDef} :
    definitions.findType? name = some type ↔ IsLast TypeDef.name name definitions.types type :=
  isLast_iff.symm

theorem findEnum?_eq_some_iff {type : EnumType} : definitions.findEnum? name = some type ↔
    ∃ definition, IsLast EnumDef.name name definitions.enums definition ∧
      definition.toType = type := by
  simp only [findEnum?, Option.map_eq_some_iff, isLast_iff]

theorem findType?_eq_none_iff :
    definitions.findType? name = none ↔ ¬ definitions.Defines (.record name) := by
  simp only [Defines, ← findType?_eq_some_iff, ← Option.isSome_iff_exists,
    Option.not_isSome_iff_eq_none]

theorem findEnum?_eq_none_iff :
    definitions.findEnum? name = none ↔ ¬ definitions.Defines (.enum name) := by
  rw [← Option.not_isSome_iff_eq_none, Option.isSome_iff_exists, Defines]
  simp only [findEnum?_eq_some_iff]
  refine not_congr ⟨?_, ?_⟩
  · rintro ⟨_, definition, hlast, -⟩
    exact ⟨definition, hlast⟩
  · rintro ⟨definition, hlast⟩
    exact ⟨_, definition, hlast, rfl⟩

/-! ## Unfolding -/

/-- A shape with definitions in place of all names, those in the definitions included.  The fields
of a record type are paired with their shapes. -/
inductive Unfolds (definitions : Definitions) : ShapeDef → Shape → Prop where
  | scalar (kind : ScalarKind) : Unfolds definitions (.scalar kind) (.scalar kind)
  | enum {name : String} {definition : EnumDef}
      (found : IsLast EnumDef.name name definitions.enums definition) :
      Unfolds definitions (.enum name) (.enum definition.toType)
  | text : Unfolds definitions .text .text
  | list {shape : ShapeDef} {tag : Option TagDef} {inner : Shape}
      (element : Unfolds definitions shape inner) :
      Unfolds definitions (.list ⟨shape, tag⟩) (.list ⟨inner, tag.map TagDef.toTag⟩)
  | record {name : String} {type : TypeDef} {pairs : List (FieldDef × Shape)}
      (found : IsLast TypeDef.name name definitions.types type)
      (declared : pairs.map Prod.fst = type.fields)
      (fields : ∀ pair ∈ pairs, Unfolds definitions pair.1.shape pair.2) :
      Unfolds definitions (.record name)
        (.record ⟨name, type.byteOrder, pairs.map fun pair ↦ pair.1.toField pair.2⟩)

namespace Unfolds

variable {definition : ShapeDef} {shape shape' : Shape}

/-- Pairs whose second halves follow from the first ones are known by the first ones. -/
theorem pairs_unique {α β : Type} {R : α → β → Prop} {pairs pairs' : List (α × β)}
    (hfirst : pairs.map Prod.fst = pairs'.map Prod.fst)
    (h : ∀ pair ∈ pairs, ∀ b, R pair.1 b → pair.2 = b) (h' : ∀ pair ∈ pairs', R pair.1 pair.2) :
    pairs = pairs' := by
  induction pairs generalizing pairs' with
  | nil => exact (List.map_eq_nil_iff.1 hfirst.symm).symm
  | cons pair pairs ih =>
    obtain _ | ⟨⟨a, b⟩, pairs'⟩ := pairs'
    · cases hfirst
    · obtain ⟨rfl, hrest⟩ := List.cons.inj hfirst
      obtain ⟨hpair, hpairs⟩ := List.forall_mem_cons.1 h
      obtain ⟨hown, hpairs'⟩ := List.forall_mem_cons.1 h'
      rw [ih hrest hpairs hpairs', ← hpair b hown]

/-- A shape unfolds in one way only. -/
theorem unique (h : definitions.Unfolds definition shape)
    (h' : definitions.Unfolds definition shape') : shape = shape' := by
  induction h generalizing shape' with
  | scalar kind | text =>
    cases h'
    rfl
  | enum found =>
    cases h' with
    | enum found' => rw [found.unique found']
  | list _ ih =>
    cases h' with
    | list element' => rw [ih element']
  | record found declared fields ih =>
    cases h' with
    | @record _ _ pairs' found' declared' fields' =>
      obtain rfl := found.unique found'
      rw [pairs_unique (R := fun field ↦ definitions.Unfolds field.shape)
        (declared.trans declared'.symm) (fun pair hmem shape ↦ ih pair hmem) fields']

/-- Only what is resolvable can be unfolded, and a shape only if the name in it can. -/
theorem resolvable (h : definitions.Unfolds definition shape) : ∀ reference,
    definition.reference? = some reference → definitions.Defines reference ∧
      ∀ name, reference = .record name → definitions.Resolvable name := by
  induction h with
  | scalar kind | text => rintro _ ⟨⟩
  | enum found =>
    rintro _ ⟨⟩
    exact ⟨⟨_, found⟩, nofun⟩
  | list _ ih => exact ih
  | @record name type pairs found declared fields ih =>
    rintro _ ⟨⟩
    have hmentions : ∀ reference, definitions.Mentions name reference →
        definitions.Defines reference ∧
          ∀ other, reference = .record other → definitions.Resolvable other := by
      rintro reference ⟨type', found', field, hmem, hreference⟩
      obtain rfl := found.unique found'
      rw [← declared] at hmem
      obtain ⟨pair, hpair, rfl⟩ := List.mem_map.1 hmem
      exact ih pair hpair reference hreference
    refine ⟨⟨type, found⟩, ?_⟩
    rintro _ ⟨⟩
    refine ⟨⟨type, found⟩, fun other hreaches ↦ ?_, fun other hreaches ↦ ?_⟩
    · rcases hreaches.cases_head with rfl | ⟨middle, huses, hrest⟩
      · exact fun reference hreference ↦ (hmentions reference hreference).1
      · exact ((hmentions _ huses).2 middle rfl).complete other hrest
    · rcases hreaches.cases_head with rfl | ⟨middle, huses, hrest⟩
      · intro hcycle
        obtain ⟨middle, huses, hrest⟩ := TransGen.head'_iff.1 hcycle
        exact ((hmentions _ huses).2 middle rfl).acyclic name hrest hcycle
      · exact ((hmentions _ huses).2 middle rfl).acyclic other hrest

end Unfolds

end Definitions

end WireFormat
