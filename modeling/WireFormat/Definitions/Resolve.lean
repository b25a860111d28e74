import WireFormat.Definitions.Basic

/-!
# Resolving definitions

`Definitions.resolve` makes a layout of a defined record type by putting the definitions of record
types and enums in place of their names.  A type that has been built is kept, so that each
definition is looked at once however often it is used.

A name that is not defined and a name that leads back to a type that is still being built are
errors, at the field that uses the name.  Each type that is being built is a defined one and none is
on the way twice, so the number of definitions bounds the depth.
-/

namespace WireFormat

/-- The record types that have been built. -/
abbrev BuiltTypes := List (String × Layout)

/-- Steps that may build record types. -/
abbrev ResolveM (ε : Type) := StateT BuiltTypes (Except ε)

/-- Puts definitions in place of the names in a shape. -/
def ShapeDef.resolve (findEnum? : String → Option EnumType)
    (buildType : String → ResolveM LayoutFailure Layout) : ShapeDef → ResolveM LayoutFailure Shape
  | .scalar kind => pure (.scalar kind)
  | .enum name =>
    match findEnum? name with
    | some type => pure (.enum type)
    | none => throw (.ofField (.unknownType name))
  | .text => pure .text
  | .list ⟨shape, tag⟩ => do
    let shape ← shape.resolve findEnum? buildType
    return .list ⟨shape, tag.map TagDef.toTag⟩
  | .record name => do
    return .record (← buildType name)

/-- The field that is defined, with its shape. -/
def FieldDef.toField (field : FieldDef) (shape : Shape) : Field where
  name := field.name
  order := field.order.map UInt32.toNat
  shape := shape
  tag := field.tag.map TagDef.toTag
  byteOrder := field.byteOrder
  bitWidth := field.bits.map UInt32.toNat
  padAfter := field.padAfter
  lengthOf := field.lengthOf
  serialize := field.serialize

/-- Puts definitions in place of the names in a field of a record type. -/
def FieldDef.resolve (findEnum? : String → Option EnumType)
    (buildType : String → ResolveM LayoutFailure Layout) (typeName : String) (field : FieldDef) :
    ResolveM LayoutError Field := fun built ↦
  match field.shape.resolve findEnum? buildType built with
  | .ok (shape, built) => .ok (field.toField shape, built)
  | .error failure => .error (failure.locate typeName field.name)

/-- Puts definitions in place of the names in a record type. -/
def TypeDef.resolve (findEnum? : String → Option EnumType)
    (buildType : String → ResolveM LayoutFailure Layout) (type : TypeDef) :
    ResolveM LayoutError Layout := do
  let fields ← type.fields.mapM (FieldDef.resolve findEnum? buildType type.name)
  return ⟨type.name, type.byteOrder, fields⟩

namespace Definitions

/-- The record type with a name; of two definitions the last counts. -/
def findType? (definitions : Definitions) (name : String) : Option TypeDef :=
  definitions.types.reverse.find? fun type ↦ type.name == name

/-- The enum with a name; of two definitions the last counts. -/
def findEnum? (definitions : Definitions) (name : String) : Option EnumType :=
  (definitions.enums.reverse.find? fun definition ↦ definition.name == name).map EnumDef.toType

/-- The number of definitions of record types that are not being built. -/
def remaining (definitions : Definitions) (building : List String) : Nat :=
  definitions.types.countP fun type ↦ decide (type.name ∉ building)

theorem remaining_lt {definitions : Definitions} {building : List String} {name : String}
    {type : TypeDef} (hname : name ∉ building) (htype : definitions.findType? name = some type) :
    definitions.remaining (name :: building) < definitions.remaining building := by
  have hmem : type ∈ definitions.types := by
    have := List.mem_of_find?_eq_some htype
    simpa using this
  have heq : type.name = name := by
    have := List.find?_some htype
    simpa using this
  unfold remaining
  generalize definitions.types = types at hmem
  have hle : ∀ types : List TypeDef,
      types.countP (fun type ↦ decide (type.name ∉ name :: building)) ≤
        types.countP fun type ↦ decide (type.name ∉ building) := by
    intro types
    apply List.countP_mono_left
    intro other _ hother
    simp only [List.mem_cons, not_or, decide_eq_true_eq] at hother ⊢
    exact hother.2
  induction types with
  | nil => simp at hmem
  | cons head tail ih =>
    rcases List.mem_cons.1 hmem with rfl | htail
    · have := hle tail
      rw [List.countP_cons_of_neg (by simp [heq]),
        List.countP_cons_of_pos (by simpa [heq] using hname)]
      omega
    · have := ih htail
      by_cases hhead : head.name ∈ building
      · rw [List.countP_cons_of_neg (by simp [hhead]), List.countP_cons_of_neg (by simp [hhead])]
        exact this
      · rw [List.countP_cons_of_pos (p := fun type : TypeDef ↦ decide (type.name ∉ building))
          (by simpa using hhead)]
        by_cases hsame : head.name = name
        · rw [List.countP_cons_of_neg (by simp [hsame])]
          omega
        · rw [List.countP_cons_of_pos (by simp [hsame, hhead])]
          omega

/-- Builds the layout of a record type.  `building` are the names of the types that are being built,
this one included. -/
def build (definitions : Definitions) (building : List String) (type : TypeDef) :
    ResolveM LayoutError Layout :=
  type.resolve definitions.findEnum? fun name built ↦
    match built.lookup name with
    | some layout => .ok (layout, built)
    | none =>
      if _hname : name ∈ building then
        .error (.ofField (.recursiveType name))
      else
        match _htype : definitions.findType? name with
        | none => .error (.ofField (.unknownType name))
        | some inner =>
          match definitions.build (name :: building) inner built with
          | .ok (layout, built) => .ok (layout, (name, layout) :: built)
          | .error error => .error (.ofRecord error)
termination_by definitions.remaining building
decreasing_by exact remaining_lt _hname _htype

/-- The layout of a record type by its name. -/
def resolve (definitions : Definitions) (name : String) : Except LayoutError Layout :=
  match definitions.findType? name with
  | none => .error ⟨name, none, .unknownType name⟩
  | some type => (definitions.build [name] type []).map Prod.fst

/-- The layout of the record type that matters. -/
def rootLayout (definitions : Definitions) : Except LayoutError Layout :=
  definitions.resolve definitions.root

end Definitions

end WireFormat
