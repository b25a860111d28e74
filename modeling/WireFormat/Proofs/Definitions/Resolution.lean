import Mathlib
import WireFormat.Proofs.Definitions.Unfolding
import WireFormat.Proofs.Failure

/-!
# Resolving definitions

`Definitions.resolve` goes through the record types in depth and keeps those that it has built.
What it keeps is what their names unfold to, so it does not matter when they were built.  The types
that are being built lead to the one at hand, so a name among them is one that leads back to itself.

* `Definitions.Faithful`, `Definitions.unfolds_of_build` — what has been built unfolds;
* `Definitions.Explains`, `Definitions.explains_of_build` — what an error says is so;
* `Definitions.resolve_correct` — both, and when a name can be resolved at all.
-/

namespace WireFormat

open Relation (ReflTransGen TransGen)

/-! ## Steps that keep a state -/

section Steps

variable {ε σ α β : Type} {x : StateT σ (Except ε) α} {f : α → StateT σ (Except ε) β} {s : σ}

theorem stateT_bind_eq_ok_iff {result : β × σ} : (x >>= f) s = .ok result ↔
    ∃ a s', x s = .ok (a, s') ∧ f a s' = .ok result := by
  change (x s >>= fun pair ↦ f pair.1 pair.2) = _ ↔ _
  rw [bind_eq_ok_iff, Prod.exists]

theorem stateT_bind_eq_error_iff {error : ε} : (x >>= f) s = .error error ↔
    x s = .error error ∨ ∃ a s', x s = .ok (a, s') ∧ f a s' = .error error := by
  change (x s >>= fun pair ↦ f pair.1 pair.2) = _ ↔ _
  rw [bind_eq_error_iff, Prod.exists]

end Steps

namespace Definitions

/-- What has been built is what its names unfold to. -/
def Faithful (definitions : Definitions) (built : BuiltTypes) : Prop :=
  ∀ name layout, built.lookup name = some layout →
    definitions.Unfolds (.record name) (.record layout)

/-- A step that builds the record type of a name gives what the name unfolds to, and keeps nothing
else. -/
def Unfolding (definitions : Definitions) (step : String → ResolveM LayoutFailure Layout) : Prop :=
  ∀ name built layout built', definitions.Faithful built → step name built = .ok (layout, built') →
    definitions.Unfolds (.record name) (.record layout) ∧ definitions.Faithful built'

/-- What is done for the name of a record type while others are being built. -/
def buildName (definitions : Definitions) (building : List String) (name : String) :
    ResolveM LayoutFailure Layout := fun built ↦
  match built.lookup name with
  | some layout => .ok (layout, built)
  | none =>
    if name ∈ building then
      .error (.ofField (.recursiveType name))
    else
      match definitions.findType? name with
      | none => .error (.ofField (.unknownType name))
      | some inner =>
        match definitions.build (name :: building) inner built with
        | .ok (layout, built) => .ok (layout, (name, layout) :: built)
        | .error error => .error (.ofRecord error)

end Definitions

variable {definitions : Definitions} {step : String → ResolveM LayoutFailure Layout}
  {findEnum? : String → Option EnumType} {built built' : BuiltTypes} {building : List String}
  {type : TypeDef} {name : String} {layout : Layout}

theorem Definitions.build_eq (definitions : Definitions) (building : List String)
    (type : TypeDef) : definitions.build building type =
      type.resolve definitions.findEnum? (definitions.buildName building) := by
  rw [build]
  congr 1
  funext name built
  unfold buildName
  cases built.lookup name with
  | some layout => rfl
  | none =>
    dsimp only
    by_cases hname : name ∈ building
    · simp [hname]
    · simp only [hname, if_false, dif_neg, not_false_eq_true]
      split
      · next hfind => simp [hfind]
      · next inner hfind =>
        cases hbuild : definitions.build (name :: building) inner built with
        | ok result => simp [hfind, hbuild]
        | error error => simp [hfind, hbuild]

/-! ## Successes -/

namespace ShapeDef

theorem unfolds_of_resolve (hstep : definitions.Unfolding step)
    (hbuilt : definitions.Faithful built) {definition : ShapeDef} {shape : Shape}
    (h : definition.resolve definitions.findEnum? step built = .ok (shape, built')) :
    definitions.Unfolds definition shape ∧ definitions.Faithful built' := by
  match definition with
  | .scalar kind =>
    cases h
    exact ⟨.scalar kind, hbuilt⟩
  | .text =>
    cases h
    exact ⟨.text, hbuilt⟩
  | .enum name =>
    rw [resolve] at h
    cases hfind : definitions.findEnum? name with
    | none =>
      rw [hfind] at h
      cases h
    | some type =>
      rw [hfind] at h
      cases h
      obtain ⟨found, hfound, rfl⟩ := Definitions.findEnum?_eq_some_iff.1 hfind
      exact ⟨.enum hfound, hbuilt⟩
  | .list ⟨inner, tag⟩ =>
    obtain ⟨element, _, helement, hresult⟩ := stateT_bind_eq_ok_iff.1 h
    cases hresult
    obtain ⟨hunfolds, hbuilt'⟩ := unfolds_of_resolve hstep hbuilt helement
    exact ⟨.list hunfolds, hbuilt'⟩
  | .record name =>
    obtain ⟨layout, _, hlayout, hresult⟩ := stateT_bind_eq_ok_iff.1 h
    cases hresult
    exact hstep name built layout _ hbuilt hlayout
termination_by sizeOf definition

end ShapeDef

theorem FieldDef.resolve_eq_ok_iff {typeName : String} {field : FieldDef} {result : Field} :
    field.resolve findEnum? step typeName built = .ok (result, built') ↔
      ∃ shape, field.shape.resolve findEnum? step built = .ok (shape, built') ∧
        result = field.toField shape := by
  rw [resolve]
  cases field.shape.resolve findEnum? step built with
  | ok pair => simp [Prod.ext_iff, eq_comm, and_comm]
  | error failure => simp

/-- The fields of a record type are resolved one after the other. -/
theorem FieldDef.exists_pairs_of_mapM (hstep : definitions.Unfolding step)
    (hbuilt : definitions.Faithful built) {typeName : String} {fields : List FieldDef}
    {results : List Field} (h : fields.mapM (FieldDef.resolve definitions.findEnum? step typeName)
      built = .ok (results, built')) :
    ∃ pairs : List (FieldDef × Shape), pairs.map Prod.fst = fields ∧
      (∀ pair ∈ pairs, definitions.Unfolds pair.1.shape pair.2) ∧
      results = pairs.map (fun pair ↦ pair.1.toField pair.2) ∧ definitions.Faithful built' := by
  induction fields generalizing built results with
  | nil =>
    cases h
    exact ⟨[], rfl, by simp, rfl, hbuilt⟩
  | cons field fields ih =>
    rw [List.mapM_cons, stateT_bind_eq_ok_iff] at h
    obtain ⟨result, middle, hfield, h⟩ := h
    obtain ⟨rest, _, hrest, hresults⟩ := stateT_bind_eq_ok_iff.1 h
    cases hresults
    obtain ⟨shape, hshape, rfl⟩ := FieldDef.resolve_eq_ok_iff.1 hfield
    obtain ⟨hunfolds, hmiddle⟩ := ShapeDef.unfolds_of_resolve hstep hbuilt hshape
    obtain ⟨pairs, rfl, hpairs, rfl, hbuilt'⟩ := ih hmiddle hrest
    exact ⟨(field, shape) :: pairs, rfl, List.forall_mem_cons.2 ⟨hunfolds, hpairs⟩, rfl, hbuilt'⟩

namespace Definitions

theorem unfolds_of_resolve (hstep : definitions.Unfolding step)
    (hbuilt : definitions.Faithful built) (hlast : IsLast TypeDef.name name definitions.types type)
    (h : type.resolve definitions.findEnum? step built = .ok (layout, built')) :
    definitions.Unfolds (.record name) (.record layout) ∧ definitions.Faithful built' := by
  obtain ⟨fields, _, hfields, hlayout⟩ := stateT_bind_eq_ok_iff.1 h
  cases hlayout
  obtain ⟨pairs, hdeclared, hpairs, rfl, hbuilt'⟩ :=
    FieldDef.exists_pairs_of_mapM hstep hbuilt hfields
  obtain rfl := hlast.1
  exact ⟨.record hlast hdeclared hpairs, hbuilt'⟩

theorem Faithful.cons (hbuilt : definitions.Faithful built)
    (h : definitions.Unfolds (.record name) (.record layout)) :
    definitions.Faithful ((name, layout) :: built) := by
  intro other found hfind
  rw [List.lookup_cons] at hfind
  split at hfind
  · next heq =>
    obtain rfl := beq_iff_eq.1 heq
    cases hfind
    exact h
  · exact hbuilt other found hfind

/-- What has been built is what its name unfolds to, and so is all that is kept. -/
theorem unfolds_of_build {building : List String} {name : String} {type : TypeDef}
    {built built' : BuiltTypes} {layout : Layout} (hbuilt : definitions.Faithful built)
    (hlast : IsLast TypeDef.name name definitions.types type)
    (h : definitions.build building type built = .ok (layout, built')) :
    definitions.Unfolds (.record name) (.record layout) ∧ definitions.Faithful built' := by
  rw [build_eq] at h
  refine unfolds_of_resolve (fun other memo layout next hmemo hstep ↦ ?_) hbuilt hlast h
  rw [buildName] at hstep
  split at hstep
  · next found hfind =>
    cases hstep
    exact ⟨hmemo other _ hfind, hmemo⟩
  · split at hstep
    · cases hstep
    · next hfresh =>
      split at hstep
      · cases hstep
      · next inner hinner =>
        split at hstep
        · next hbuild =>
          cases hstep
          obtain ⟨hunfolds, hnext⟩ :=
            unfolds_of_build hmemo (findType?_eq_some_iff.1 hinner) hbuild
          exact ⟨hunfolds, hnext.cons hunfolds⟩
        · cases hstep
termination_by definitions.remaining building
decreasing_by exact remaining_lt ‹_› ‹_›

end Definitions

/-! ## Failures -/

/-- A shape fails at the one name in it. -/
theorem ShapeDef.resolve_eq_error {definition : ShapeDef} {built : BuiltTypes}
    {failure : LayoutFailure}
    (h : definition.resolve findEnum? step built = .error failure) :
    (∃ name, definition.reference? = some (.enum name) ∧ findEnum? name = none ∧
      failure = .ofField (.unknownType name)) ∨
    ∃ name, definition.reference? = some (.record name) ∧ step name built = .error failure := by
  match definition with
  | .scalar kind | .text => cases h
  | .enum name =>
    rw [resolve] at h
    cases hfind : findEnum? name with
    | none =>
      rw [hfind] at h
      cases h
      exact .inl ⟨name, rfl, hfind, rfl⟩
    | some type =>
      rw [hfind] at h
      cases h
  | .list ⟨inner, tag⟩ =>
    rcases stateT_bind_eq_error_iff.1 h with hinner | ⟨_, _, _, hresult⟩
    · exact inner.resolve_eq_error hinner
    · cases hresult
  | .record name =>
    rcases stateT_bind_eq_error_iff.1 h with hname | ⟨_, _, _, hresult⟩
    · exact .inr ⟨name, rfl, hname⟩
    · cases hresult
termination_by sizeOf definition

/-- A record type fails in the shape of one of its fields. -/
theorem TypeDef.resolve_eq_error {error : LayoutError}
    (h : type.resolve findEnum? step built = .error error) : ∃ field ∈ type.fields,
      ∃ before failure, field.shape.resolve findEnum? step before = .error failure ∧
        error = failure.locate type.name field.name := by
  have hfields : type.fields.mapM (FieldDef.resolve findEnum? step type.name) built =
      .error error := by
    rcases stateT_bind_eq_error_iff.1 h with hfields | ⟨_, _, _, hresult⟩
    · exact hfields
    · cases hresult
  clear h
  generalize type.fields = fields at hfields
  induction fields generalizing built with
  | nil => cases hfields
  | cons field fields ih =>
    rw [List.mapM_cons] at hfields
    rcases stateT_bind_eq_error_iff.1 hfields with hfield | ⟨_, middle, _, hrest⟩
    · rw [FieldDef.resolve] at hfield
      split at hfield
      · cases hfield
      · next failure hfailure =>
        cases hfield
        exact ⟨field, List.mem_cons_self, built, failure, hfailure, rfl⟩
    · rcases stateT_bind_eq_error_iff.1 hrest with hrest | ⟨_, _, _, hresult⟩
      · obtain ⟨other, hmem, hother⟩ := ih hrest
        exact ⟨other, List.mem_cons_of_mem _ hmem, hother⟩
      · cases hresult

namespace Definitions

/-- What an error of a record type says is so: a name is not defined or leads back to itself, and
the error is at a field with that name, of a record type that is reached. -/
inductive Explains (definitions : Definitions) (root : String) : LayoutError → Prop where
  | missing (undefined : ¬ definitions.Defines (.record root)) :
      Explains definitions root ⟨root, none, .unknownType root⟩
  | unknown {name : String} {type : TypeDef} {field : FieldDef} {reference : Reference}
      (reaches : ReflTransGen definitions.Uses root name)
      (last : IsLast TypeDef.name name definitions.types type) (mem : field ∈ type.fields)
      (mentions : field.shape.reference? = some reference)
      (undefined : ¬ definitions.Defines reference) :
      Explains definitions root ⟨name, some field.name, .unknownType reference.name⟩
  | recursive {name other : String} {type : TypeDef} {field : FieldDef}
      (reaches : ReflTransGen definitions.Uses root name)
      (last : IsLast TypeDef.name name definitions.types type) (mem : field ∈ type.fields)
      (mentions : field.shape.reference? = some (.record other))
      (closes : ReflTransGen definitions.Uses other name) :
      Explains definitions root ⟨name, some field.name, .recursiveType other⟩

/-- What an error says is so, if all types that are being built lead to the one at hand. -/
theorem explains_of_build {building : List String} {root name : String} {type : TypeDef}
    {built : BuiltTypes} {error : LayoutError}
    (hreaches : ReflTransGen definitions.Uses root name)
    (hlast : IsLast TypeDef.name name definitions.types type)
    (hbuilding : ∀ other ∈ building, ReflTransGen definitions.Uses other name)
    (h : definitions.build building type built = .error error) :
    definitions.Explains root error := by
  rw [build_eq] at h
  obtain ⟨field, hmem, before, failure, hfailure, rfl⟩ := TypeDef.resolve_eq_error h
  rw [hlast.1]
  rcases ShapeDef.resolve_eq_error hfailure with ⟨other, hmentions, hnone, rfl⟩ |
    ⟨other, hmentions, hstep⟩
  · exact .unknown hreaches hlast hmem hmentions (findEnum?_eq_none_iff.1 hnone)
  · have huses : definitions.Uses name other := ⟨type, hlast, field, hmem, hmentions⟩
    rw [buildName] at hstep
    split at hstep
    · cases hstep
    · split at hstep
      · next hother =>
        cases hstep
        exact .recursive hreaches hlast hmem hmentions (hbuilding other hother)
      · split at hstep
        · next hnone =>
          cases hstep
          exact .unknown hreaches hlast hmem hmentions (findType?_eq_none_iff.1 hnone)
        · next hfresh inner hinner =>
          split at hstep
          · cases hstep
          · next hbuild =>
            cases hstep
            refine explains_of_build (hreaches.tail huses) (findType?_eq_some_iff.1 hinner) ?_ hbuild
            rintro earlier hearlier
            rcases List.mem_cons.1 hearlier with rfl | hearlier
            · exact .refl
            · exact (hbuilding earlier hearlier).tail huses
termination_by definitions.remaining building
decreasing_by exact remaining_lt ‹_› ‹_›

/-- What is resolvable has nothing for an error to say. -/
theorem Resolvable.not_explains (h : definitions.Resolvable name) (error : LayoutError) :
    ¬ definitions.Explains name error := by
  intro hexplains
  cases hexplains with
  | missing undefined => exact undefined h.defined
  | unknown reaches last mem mentions undefined =>
    exact undefined (h.complete _ reaches _ ⟨_, last, _, mem, mentions⟩)
  | recursive reaches last mem mentions closes =>
    exact h.acyclic _ reaches (.head' ⟨_, last, _, mem, mentions⟩ closes)

/-! ## Resolving -/

theorem unfolds_of_resolve_eq_ok (h : definitions.resolve name = .ok layout) :
    definitions.Unfolds (.record name) (.record layout) := by
  rw [resolve] at h
  split at h
  · cases h
  · next type hfind =>
    obtain ⟨⟨_, built⟩, hbuild, rfl⟩ := map_eq_ok_iff.1 h
    exact (unfolds_of_build (fun _ _ hlookup ↦ by cases hlookup)
      (findType?_eq_some_iff.1 hfind) hbuild).1

theorem explains_of_resolve_eq_error {error : LayoutError}
    (h : definitions.resolve name = .error error) : definitions.Explains name error := by
  rw [resolve] at h
  split at h
  · next hnone =>
    cases h
    exact .missing (findType?_eq_none_iff.1 hnone)
  · next type hfind =>
    cases hbuild : definitions.build [name] type [] with
    | ok pair =>
      rw [hbuild] at h
      cases h
    | error failure =>
      rw [hbuild] at h
      cases h
      refine explains_of_build .refl (findType?_eq_some_iff.1 hfind) ?_ hbuild
      rintro _ (_ | ⟨_, ⟨⟩⟩)
      exact .refl

/-- Resolving answers for every name: with what the name unfolds to, if all that it leads to is
defined and nothing there leads back to itself, and otherwise with an error that says what is not
so. -/
theorem resolve_correct (definitions : Definitions) (name : String) :
    ((∃ layout, definitions.resolve name = .ok layout) ↔ definitions.Resolvable name) ∧
      (∀ layout, definitions.resolve name = .ok layout ↔
        definitions.Unfolds (.record name) (.record layout)) ∧
      ∀ error, definitions.resolve name = .error error → definitions.Explains name error := by
  have hresolvable (layout : Layout) (h : definitions.Unfolds (.record name) (.record layout)) :
      definitions.Resolvable name := (h.resolvable (.record name) rfl).2 name rfl
  have hsucceeds (h : definitions.Resolvable name) :
      ∃ layout, definitions.resolve name = .ok layout := by
    cases hresolve : definitions.resolve name with
    | ok layout => exact ⟨layout, rfl⟩
    | error error => exact (h.not_explains error (explains_of_resolve_eq_error hresolve)).elim
  refine ⟨⟨?_, hsucceeds⟩, fun layout ↦ ⟨unfolds_of_resolve_eq_ok, fun h ↦ ?_⟩,
    fun error ↦ explains_of_resolve_eq_error⟩
  · rintro ⟨layout, hresolve⟩
    exact hresolvable layout (unfolds_of_resolve_eq_ok hresolve)
  · obtain ⟨layout', hresolve⟩ := hsucceeds (hresolvable layout h)
    cases h.unique (unfolds_of_resolve_eq_ok hresolve)
    exact hresolve

/-- A defined field on the wire. -/
def fieldDef (name : String) (order : UInt32) (shape : ShapeDef) : FieldDef :=
  ⟨name, some order, shape, none, none, none, false, none, true⟩

/-- Two record types that use each other, and one that uses another twice, the name of which is
defined twice. -/
def rings : Definitions where
  root := "Node"
  types := [
    ⟨"Point", none, []⟩,
    ⟨"Node", none, [fieldDef "child" 0 (.record "Leaf")]⟩,
    ⟨"Leaf", none, [fieldDef "parents" 0 (.list ⟨.record "Node", none⟩)]⟩,
    ⟨"Line", none, [fieldDef "from" 0 (.record "Point"), fieldDef "to" 1 (.record "Point")]⟩,
    ⟨"Point", none, [fieldDef "x" 0 (.scalar (.integer .u8))]⟩]
  enums := []

/-- The layout of a point. -/
def point : Layout :=
  { name := "Point", fields := [{ name := "x", order := some 0, shape := .scalar (.integer .u8) }] }

/-- The layout of a line between two points. -/
def line : Layout where
  name := "Line"
  fields := [{ name := "from", order := some 0, shape := .record point },
    { name := "to", order := some 1, shape := .record point }]

/-- A type used twice is the same both times, and two types that use each other are turned down. -/
theorem rings_resolve : rings.resolve "Line" = .ok line ∧
    rings.Unfolds (.record "Line") (.record line) ∧
    rings.resolve "Node" = .error ⟨"Leaf", some "parents", .recursiveType "Node"⟩ ∧
    rings.Explains "Node" ⟨"Leaf", some "parents", .recursiveType "Node"⟩ := by
  have hline : rings.resolve "Line" = .ok line := by cbv
  have hnode : rings.resolve "Node" = .error ⟨"Leaf", some "parents", .recursiveType "Node"⟩ := by
    cbv
  exact ⟨hline, ((resolve_correct rings "Line").2.1 line).1 hline, hnode,
    (resolve_correct rings "Node").2.2 _ hnode⟩

end Definitions

end WireFormat
