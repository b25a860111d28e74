import WireFormat.Schema.Typed

/-!
# Caches of schemas

A cache compiles each layout once, by the type it belongs to or by its name.  A layout that makes no
sense is kept as well, by its error.  Each schema in a cache has a serial number, so that two
answers can be told to be the same schema and not only equal ones.
-/

namespace WireFormat

/-- What a schema is found by.  Types and names never meet. -/
inductive CacheKey where
  | type (typeId : String)
  | name (name : String)
deriving DecidableEq, Repr

/-- A schema in a cache. -/
structure CachedSchema where
  /-- The number of schemas that the cache had before this one. -/
  serial : Nat
  schema : Schema

/-- What has become of the layouts seen so far, the latest first. -/
structure PlanCache where
  slots : List (CacheKey × Except LayoutError CachedSchema) := []

namespace PlanCache

/-- The number of keys seen, those of refused layouts included. -/
def size (cache : PlanCache) : Nat := cache.slots.length

/-- Whether no key has been seen. -/
def isEmpty (cache : PlanCache) : Bool := cache.slots.isEmpty

/-- The number of schemas in the cache. -/
def schemaCount (cache : PlanCache) : Nat := cache.slots.countP fun slot ↦ slot.2.isOk

/-- What has become of a layout, which is compiled if its key is new. -/
def resolve (cache : PlanCache) (key : CacheKey) (layout : Layout) :
    Except LayoutError CachedSchema × PlanCache :=
  match cache.slots.lookup key with
  | some outcome => (outcome, cache)
  | none =>
    let outcome := (Schema.ofLayout layout).map (CachedSchema.mk cache.schemaCount)
    (outcome, ⟨(key, outcome) :: cache.slots⟩)

/-- The schema of a type. -/
def get (cache : PlanCache) (α : Type) [WireType α] : Except LayoutError CachedSchema × PlanCache :=
  cache.resolve (.type (WireType.typeId α)) (WireType.layout α)

/-- The schema of the first layout seen with the name of this one. -/
def getNamed (cache : PlanCache) (layout : Layout) : Except LayoutError CachedSchema × PlanCache :=
  cache.resolve (.name layout.name) layout

end PlanCache

end WireFormat
