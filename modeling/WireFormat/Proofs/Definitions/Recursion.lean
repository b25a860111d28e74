import WireFormat.Proofs.Definitions.Resolution
import WireFormat.Proofs.Layout.Faults

/-!
# Resolved layouts are not recursive

The record types around a record type in a resolved layout lead to it by their names.  If it were
one of them, its name would lead back to itself, and then nothing would have been resolved.

* `Definitions.Unfolds.exists_of_holds` — what is in a resolved field has been resolved by its name;
* `Definitions.Leads` — what is known of a record type inside a resolved one, which each step to a
  field keeps;
* `Definitions.fresh_of_resolve` — no record type in a resolved layout is inside itself;
* `Definitions.fault_ne_of_resolve` — so no schema of one fails by the name of a type.
-/

namespace WireFormat

open Relation (ReflTransGen TransGen)

namespace Definitions

variable {definitions : Definitions} {name : String} {layout : Layout}

namespace Unfolds

/-- A record type is named as it is called. -/
theorem name_eq (h : definitions.Unfolds (.record name) (.record layout)) : layout.name = name := by
  cases h with
  | record => rfl

/-- The record type that a field or element holds is what the name in it stands for. -/
theorem exists_of_holds {definition : ShapeDef} {shape : Shape} {tag : Option Tag}
    (h : definitions.Unfolds definition shape) (hheld : shape.Holds tag layout) :
    ∃ other, definition.reference? = some (.record other) ∧
      definitions.Unfolds (.record other) (.record layout) := by
  induction hheld generalizing definition with
  | record =>
    cases h with
    | record found declared fields => exact ⟨_, rfl, .record found declared fields⟩
  | element _ _ ih =>
    cases h with
    | list element =>
      obtain ⟨other, hreference, hother⟩ := ih element
      exact ⟨other, by rw [ShapeDef.reference?, hreference], hother⟩

/-- A record type that is held by a field of another is used by it. -/
theorem exists_uses (h : definitions.Unfolds (.record name) (.record layout)) {field : Field}
    (hmem : field ∈ layout.fields) {held : Layout} (hheld : field.shape.Holds field.tag held) :
    ∃ other, definitions.Uses name other ∧ definitions.Unfolds (.record other) (.record held) := by
  cases h with
  | @record _ type pairs found declared fields =>
    obtain ⟨⟨definition, shape⟩, hpair, rfl⟩ := List.mem_map.1 hmem
    obtain ⟨other, hreference, hother⟩ := (fields _ hpair).exists_of_holds hheld
    refine ⟨other, ⟨type, found, definition, ?_, hreference⟩, hother⟩
    rw [← declared]
    exact List.mem_map_of_mem hpair

end Unfolds

/-- The record type is what a name stands for that the first name leads to, as do the names of all
record types around it, which lead on to its own. -/
def Leads (definitions : Definitions) (root : String) (site : Site) : Prop :=
  ∃ name, definitions.Unfolds (.record name) (.record site.layout) ∧
    ReflTransGen definitions.Uses root name ∧
    ∀ outer ∈ site.enclosing, TransGen definitions.Uses outer name

namespace Leads

variable {root : String} {site target : Site}

/-- A step to a record type that a field holds. -/
theorem inner (h : definitions.Leads root site) {field : Field} (hmem : field ∈ site.layout.fields)
    {layout : Layout} (hheld : field.shape.Holds field.tag layout) :
    definitions.Leads root (site.inner field layout) := by
  obtain ⟨name, hunfolds, hroot, houter⟩ := h
  obtain ⟨other, huses, hother⟩ := hunfolds.exists_uses hmem hheld
  refine ⟨other, hother, hroot.tail huses, fun outer hmem ↦ ?_⟩
  obtain hmem | hmem := List.mem_append.1 hmem
  · exact (houter outer hmem).tail huses
  · obtain rfl := List.mem_singleton.1 hmem
    rw [hunfolds.name_eq]
    exact .single huses

theorem of_reaches (h : definitions.Leads root site) (hreaches : Site.Reaches site target) :
    definitions.Leads root target := by
  induction hreaches with
  | here site => exact h
  | field hmem hheld _ ih => exact ih (h.inner (List.mem_filter.1 hmem).1 hheld)

end Leads

/-- No record type in a resolved layout is inside itself. -/
theorem fresh_of_resolve (h : definitions.resolve name = .ok layout) {site : Site}
    (hreaches : Site.Reaches ⟨[], .little, layout⟩ site) : site.layout.name ∉ site.enclosing := by
  have hunfolds := unfolds_of_resolve_eq_ok h
  have hresolvable : definitions.Resolvable name :=
    (hunfolds.resolvable (.record name) rfl).2 name rfl
  have hroot : definitions.Leads name ⟨[], .little, layout⟩ := ⟨name, hunfolds, .refl, nofun⟩
  obtain ⟨other, hother, hleads, houter⟩ := hroot.of_reaches hreaches
  intro hmem
  rw [hother.name_eq] at hmem
  exact hresolvable.acyclic other hleads (houter other hmem)

/-- The schema of a resolved layout never fails because a type is inside itself or is not known. -/
theorem fault_ne_of_resolve (h : definitions.resolve name = .ok layout) {error : LayoutError}
    (herror : Schema.ofLayout layout = .error error) (type : String) :
    error.fault ≠ .recursiveType type ∧ error.fault ≠ .unknownType type := by
  have hspares : error.fault.isOfName ≠ true := by
    intro hname
    obtain ⟨site, hreaches, hmem, -⟩ := Schema.exists_recursive_of_isOfName herror hname
    exact fresh_of_resolve h hreaches hmem
  constructor
  · intro hfault
    exact hspares (by rw [hfault]; rfl)
  · intro hfault
    exact hspares (by rw [hfault]; rfl)

/-- A record type with two records of another in one place. -/
def overlap : Definitions where
  root := "Line"
  types := [
    ⟨"Line", none, [fieldDef "from" 0 (.record "Point"), fieldDef "to" 0 (.record "Point")]⟩,
    ⟨"Point", none, [fieldDef "x" 0 (.scalar (.integer .u8))]⟩]
  enums := []

/-- What is resolved can still be wrong, but not by the name of a type. -/
theorem overlap_fault : ∃ layout, overlap.resolve "Line" = .ok layout ∧
    ∃ error, Schema.ofLayout layout = .error error ∧ error.fault = .duplicateOrder 0 ∧
      error.fault ≠ .recursiveType "Point" ∧ error.fault ≠ .unknownType "Point" := by
  have hresolve : overlap.resolve "Line" = .ok { line with
      fields := [{ name := "from", order := some 0, shape := .record point },
        { name := "to", order := some 0, shape := .record point }] } := by cbv
  have herror : Schema.ofLayout { line with
      fields := [{ name := "from", order := some 0, shape := .record point },
        { name := "to", order := some 0, shape := .record point }] } =
      .error ⟨"Line", some "to", .duplicateOrder 0⟩ := by cbv
  exact ⟨_, hresolve, _, herror, rfl, fault_ne_of_resolve hresolve herror "Point"⟩

end Definitions

end WireFormat
