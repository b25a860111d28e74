import Mathlib
import WireFormat.Proofs.Outcome
import WireFormat.Schema.Cache

/-!
# What a cache answers

A cache looks at a layout only if nobody has asked with its key before.  So what it knows after some
calls is known from the first call of each key, whatever layouts have come with the key later.

* `CacheCall`, `PlanCache.replies` — calls, and the answers to them one after the other;
* `PlanCache.Reflects`, `PlanCache.Numbered` — what a cache knows after some calls, and that each of
  its schemas has a number of its own, which one more call keeps;
* `PlanCache.replies_correct` — the answers, which of them are the same schema, and the size of the
  cache.
-/

namespace WireFormat

/-- A call to a cache. -/
inductive CacheCall : Type 1 where
  /-- For the schema of a type. -/
  | get (α : Type) [wireType : WireType α]
  /-- For the schema of a layout, by its name. -/
  | getNamed (layout : Layout)

namespace CacheCall

/-- What the schema is found by. -/
def key : CacheCall → CacheKey
  | get α => .type (WireType.typeId α)
  | getNamed layout => .name layout.name

/-- What is compiled if the key is new. -/
def layout : CacheCall → Layout
  | get α => WireType.layout α
  | getNamed layout => layout

/-- The answer to a call, and the cache after it. -/
def ask (cache : PlanCache) : CacheCall → Except LayoutError CachedSchema × PlanCache
  | get α => cache.get α
  | getNamed layout => cache.getNamed layout

theorem ask_eq (cache : PlanCache) (call : CacheCall) :
    call.ask cache = cache.resolve call.key call.layout := by
  cases call <;> rfl

end CacheCall

namespace PlanCache

variable {cache : PlanCache} {key key' : CacheKey} {layout : Layout} {call : CacheCall}
  {calls : List CacheCall} {outcome : Except LayoutError CachedSchema}
  {reply : Except LayoutError CachedSchema × PlanCache} {i j : Nat}

/-- The answers to some calls, one after the other, each with the cache after it. -/
def replies (cache : PlanCache) :
    List CacheCall → List (Except LayoutError CachedSchema × PlanCache)
  | [] => []
  | call :: rest => call.ask cache :: (call.ask cache).2.replies rest

/-! ## One call -/

theorem resolve_of_some (h : cache.slots.lookup key = some outcome) :
    cache.resolve key layout = (outcome, cache) := by
  rw [resolve, h]

theorem resolve_of_none (h : cache.slots.lookup key = none) :
    cache.resolve key layout =
      ((Schema.ofLayout layout).map (CachedSchema.mk cache.schemaCount),
        ⟨(key, (Schema.ofLayout layout).map (CachedSchema.mk cache.schemaCount)) ::
          cache.slots⟩) := by
  rw [resolve, h]

/-- What has been answered is known from then on, and nothing else has become known. -/
theorem lookup_ask (cache : PlanCache) (call : CacheCall) (key : CacheKey) :
    (call.ask cache).2.slots.lookup key =
      if key = call.key then some (call.ask cache).1 else cache.slots.lookup key := by
  rw [CacheCall.ask_eq]
  cases hknown : cache.slots.lookup call.key with
  | some outcome =>
    rw [resolve_of_some hknown]
    split
    · next hkey => rw [hkey, hknown]
    · rfl
  | none =>
    rw [resolve_of_none hknown, List.lookup_cons]
    by_cases hkey : key = call.key
    · rw [if_pos hkey, hkey, beq_self_eq_true]
    · rw [if_neg hkey, beq_false_of_ne hkey]

/-- What is known is not forgotten. -/
theorem lookup_ask_of_some (h : cache.slots.lookup key = some outcome) :
    (call.ask cache).2.slots.lookup key = some outcome := by
  rw [lookup_ask]
  split
  · next hkey => rw [CacheCall.ask_eq, resolve_of_some (hkey ▸ h)]
  · exact h

/-- What one more call keeps holds after each of any number of calls. -/
theorem invariant_of_replies {P : PlanCache → List CacheCall → Prop}
    (hask : ∀ cache before call, P cache before → P (call.ask cache).2 (before ++ [call]))
    (before : List CacheCall) (h : P cache before)
    (hreply : (cache.replies calls)[i]? = some reply) :
    P reply.2 (before ++ calls.take (i + 1)) := by
  induction calls generalizing cache before i with
  | nil => cases hreply
  | cons call rest ih =>
    have hcall := hask cache before call h
    rw [replies] at hreply
    cases i with
    | zero =>
      rw [List.getElem?_cons_zero, Option.some.injEq] at hreply
      subst hreply
      exact hcall
    | succ i =>
      rw [List.getElem?_cons_succ] at hreply
      have hrest := ih _ hcall hreply
      rwa [List.append_assoc] at hrest

/-! ## What a cache knows -/

/-- A cache knows what has become of the first layout of each key, and nothing else. -/
structure Reflects (cache : PlanCache) (calls : List CacheCall) : Prop where
  outcomes : ∀ key, (cache.slots.lookup key).map (Except.map CachedSchema.schema) =
    (calls.find? fun call ↦ call.key == key).map fun call ↦ Schema.ofLayout call.layout
  keys : (cache.slots.map Prod.fst).Nodup

theorem reflects_nil : Reflects {} [] := ⟨fun _ ↦ rfl, .nil⟩

namespace Reflects

/-- A key is known exactly if some call has had it. -/
theorem isSome_lookup_iff (h : cache.Reflects calls) :
    (cache.slots.lookup key).isSome ↔ key ∈ calls.map CacheCall.key := by
  have hsome := congrArg Option.isSome (h.outcomes key)
  rw [Option.isSome_map, Option.isSome_map] at hsome
  rw [hsome, List.find?_isSome]
  simp

/-- A key that another call has had is found where it was. -/
theorem find?_append_of_ne (hkey : call.key ≠ key) :
    (calls ++ [call]).find? (fun other ↦ other.key == key) =
      calls.find? fun other ↦ other.key == key := by
  rw [List.find?_append, List.find?_cons_of_neg (by simpa using hkey), List.find?_nil,
    Option.or_none]

/-- With a key that is known, nothing changes. -/
theorem append_of_some (h : cache.Reflects calls)
    (hknown : cache.slots.lookup call.key = some outcome) : cache.Reflects (calls ++ [call]) := by
  refine ⟨fun key ↦ ?_, h.keys⟩
  rw [h.outcomes]
  by_cases hkey : call.key = key
  · have hcalled : call.key ∈ calls.map CacheCall.key :=
      h.isSome_lookup_iff.1 (Option.isSome_of_eq_some hknown)
    have hfound : (calls.find? fun other ↦ other.key == key).isSome := by
      rw [List.find?_isSome]
      simpa [hkey] using hcalled
    rw [List.find?_append, Option.or_of_isSome hfound]
  · rw [find?_append_of_ne hkey]

/-- With a new key, the layout is compiled. -/
theorem ask_of_none (h : cache.Reflects calls) (hknown : cache.slots.lookup call.key = none) :
    (call.ask cache).2.Reflects (calls ++ [call]) := by
  refine ⟨fun key ↦ ?_, ?_⟩
  · rw [lookup_ask]
    split
    · next hkey =>
      subst hkey
      have hcalled : calls.find? (fun other ↦ other.key == call.key) = none := by
        have hnone := h.outcomes call.key
        rwa [hknown, Option.map_none, eq_comm, Option.map_eq_none_iff] at hnone
      rw [List.find?_append, hcalled, Option.none_or, List.find?_cons_of_pos (by simp),
        Option.map_some, Option.map_some, CacheCall.ask_eq, resolve_of_none hknown]
      cases Schema.ofLayout call.layout <;> rfl
    · next hkey => rw [h.outcomes, find?_append_of_ne (Ne.symm hkey)]
  · rw [CacheCall.ask_eq, resolve_of_none hknown, List.map_cons, List.nodup_cons]
    refine ⟨fun hmem ↦ ?_, h.keys⟩
    obtain ⟨slot, hslot, hkey⟩ := List.mem_map.1 hmem
    have hne := List.lookup_eq_none_iff.1 hknown slot hslot
    simp [hkey] at hne

/-- One more call keeps what a cache knows. -/
theorem ask (h : cache.Reflects calls) (call : CacheCall) :
    (call.ask cache).2.Reflects (calls ++ [call]) := by
  cases hknown : cache.slots.lookup call.key with
  | some outcome =>
    rw [CacheCall.ask_eq, resolve_of_some hknown]
    exact h.append_of_some hknown
  | none => exact h.ask_of_none hknown

theorem of_replies (hreply : (replies {} calls)[i]? = some reply) :
    reply.2.Reflects (calls.take (i + 1)) :=
  invariant_of_replies (fun _ _ call h ↦ h.ask call) [] reflects_nil hreply

/-- The size of a cache is the number of keys that calls have had. -/
theorem size_eq (h : cache.Reflects calls) :
    cache.size = (calls.map CacheCall.key).toFinset.card := by
  have hkeys : (cache.slots.map Prod.fst).toFinset = (calls.map CacheCall.key).toFinset := by
    ext key
    rw [List.mem_toFinset, List.mem_toFinset, ← h.isSome_lookup_iff, List.lookup_isSome_iff,
      List.mem_map]
    simp only [beq_iff_eq, @eq_comm _ key]
  rw [← hkeys, List.toFinset_card_of_nodup h.keys, List.length_map, size]

end Reflects

/-! ## Which schema it is -/

/-- No schema stands for two keys, and the next one will have a number of its own. -/
structure Numbered (cache : PlanCache) : Prop where
  serial_lt : ∀ key schema, cache.slots.lookup key = some (.ok schema) →
    schema.serial < cache.schemaCount
  serial_inj : ∀ key key' schema schema', cache.slots.lookup key = some (.ok schema) →
    cache.slots.lookup key' = some (.ok schema') → schema.serial = schema'.serial → key = key'

theorem numbered_nil : Numbered {} := ⟨nofun, nofun⟩

/-- What is known after a call was known before, or it has been compiled and has the next number. -/
theorem lookup_ask_eq_ok {schema : CachedSchema}
    (h : (call.ask cache).2.slots.lookup key = some (.ok schema)) :
    cache.slots.lookup key = some (.ok schema) ∨
      key = call.key ∧ schema.serial = cache.schemaCount ∧
        (call.ask cache).2.schemaCount = cache.schemaCount + 1 := by
  rw [lookup_ask] at h
  split at h
  · next hkey =>
    rw [Option.some.injEq] at h
    rw [CacheCall.ask_eq] at h ⊢
    cases hknown : cache.slots.lookup call.key with
    | some outcome =>
      rw [resolve_of_some hknown] at h
      exact .inl (by rw [hkey, hknown, ← h])
    | none =>
      rw [resolve_of_none hknown] at h ⊢
      dsimp only at h ⊢
      obtain ⟨own, -, rfl⟩ := map_eq_ok_iff.1 h
      exact .inr ⟨hkey, rfl, by rw [h]; exact List.countP_cons_of_pos rfl⟩
  · exact .inl h

theorem schemaCount_le_ask (cache : PlanCache) (call : CacheCall) :
    cache.schemaCount ≤ (call.ask cache).2.schemaCount := by
  rw [CacheCall.ask_eq]
  cases hknown : cache.slots.lookup call.key with
  | some outcome => rw [resolve_of_some hknown]
  | none =>
    rw [resolve_of_none hknown]
    exact (List.sublist_cons_self _ _).countP_le

namespace Numbered

/-- One more call keeps the numbers apart, since a new one is greater than all before it. -/
theorem ask (h : cache.Numbered) (call : CacheCall) : (call.ask cache).2.Numbered := by
  refine ⟨fun key schema hkey ↦ ?_, fun key key' schema schema' hkey hkey' hserial ↦ ?_⟩
  · rcases lookup_ask_eq_ok hkey with hold | ⟨-, hnew, hcount⟩
    · exact Nat.lt_of_lt_of_le (h.serial_lt key schema hold) (schemaCount_le_ask cache call)
    · omega
  · rcases lookup_ask_eq_ok hkey with hold | ⟨rfl, hnew, -⟩ <;>
      rcases lookup_ask_eq_ok hkey' with hold' | ⟨rfl, hnew', -⟩
    · exact h.serial_inj key key' schema schema' hold hold' hserial
    · have hlt := h.serial_lt key schema hold
      omega
    · have hlt := h.serial_lt key' schema' hold'
      omega
    · rfl

theorem of_replies (hreply : (replies {} calls)[i]? = some reply) : reply.2.Numbered :=
  invariant_of_replies (P := fun cache _ ↦ cache.Numbered) (fun _ _ call h ↦ h.ask call) []
    numbered_nil hreply

end Numbered

/-! ## Answers -/

theorem length_replies (cache : PlanCache) (calls : List CacheCall) :
    (cache.replies calls).length = calls.length := by
  induction calls generalizing cache with
  | nil => rfl
  | cons call rest ih => rw [replies, List.length_cons, List.length_cons, ih]

/-- What is known is not forgotten, however many calls follow. -/
theorem lookup_of_replies (h : cache.slots.lookup key = some outcome)
    (hreply : (cache.replies calls)[i]? = some reply) :
    reply.2.slots.lookup key = some outcome :=
  invariant_of_replies (P := fun cache _ ↦ cache.slots.lookup key = some outcome)
    (fun _ _ _ ↦ lookup_ask_of_some) [] h hreply

/-- An answer is known from then on. -/
theorem lookup_of_le {later : Except LayoutError CachedSchema × PlanCache}
    (hcall : calls[i]? = some call) (hreply : (cache.replies calls)[i]? = some reply)
    (hle : i ≤ j) (hlater : (cache.replies calls)[j]? = some later) :
    later.2.slots.lookup call.key = some reply.1 := by
  induction calls generalizing cache i j with
  | nil => cases hcall
  | cons first rest ih =>
    rw [replies] at hreply hlater
    cases i with
    | zero =>
      rw [List.getElem?_cons_zero, Option.some.injEq] at hcall hreply
      subst hcall hreply
      have hknown : (first.ask cache).2.slots.lookup first.key = some (first.ask cache).1 := by
        rw [lookup_ask, if_pos rfl]
      cases j with
      | zero =>
        rw [List.getElem?_cons_zero, Option.some.injEq] at hlater
        subst hlater
        exact hknown
      | succ j => exact lookup_of_replies hknown hlater
    | succ i =>
      cases j with
      | zero => cases hle
      | succ j => exact ih hcall hreply (Nat.le_of_succ_le_succ hle) hlater

/-- Two answers are the same schema exactly if they have been asked for with one key. -/
theorem serial_eq_iff {first second : CacheCall} {schema schema' : CachedSchema}
    {after after' : PlanCache} (hfirst : calls[i]? = some first)
    (hsecond : calls[j]? = some second)
    (hreply : (replies {} calls)[i]? = some (.ok schema, after))
    (hreply' : (replies {} calls)[j]? = some (.ok schema', after')) :
    schema.serial = schema'.serial ↔ first.key = second.key := by
  wlog hle : i ≤ j generalizing i j first second schema schema' after after'
  · rw [eq_comm, @eq_comm CacheKey]
    exact this hsecond hfirst hreply' hreply (Nat.le_of_not_le hle)
  have hknown := lookup_of_le hfirst hreply hle hreply'
  have hknown' := lookup_of_le hsecond hreply' (Nat.le_refl j) hreply'
  constructor
  · exact (Numbered.of_replies hreply').serial_inj _ _ _ _ hknown hknown'
  · intro hkey
    rw [hkey, hknown', Option.some.injEq, Except.ok.injEq] at hknown
    rw [hknown]

/-- What the answers to some calls are, each with the cache after it. -/
structure AnswersByKey (calls : List CacheCall)
    (replies : List (Except LayoutError CachedSchema × PlanCache)) : Prop where
  length : replies.length = calls.length
  /-- What has become of the layout of the first call with the key, be it a schema or an error. -/
  outcome : ∀ (i : Nat) (call : CacheCall) (answer : Except LayoutError CachedSchema)
    (cache : PlanCache), calls[i]? = some call → replies[i]? = some (answer, cache) →
      ∃ first, calls.find? (fun other ↦ other.key == call.key) = some first ∧
        answer.map CachedSchema.schema = Schema.ofLayout first.layout
  /-- Two schemas are the same one exactly if they have one key. -/
  identity : ∀ (i j : Nat) (call call' : CacheCall) (schema schema' : CachedSchema)
    (cache cache' : PlanCache), calls[i]? = some call → calls[j]? = some call' →
      replies[i]? = some (.ok schema, cache) → replies[j]? = some (.ok schema', cache') →
        (schema.serial = schema'.serial ↔ call.key = call'.key)
  /-- The cache has an entry for each key so far. -/
  size : ∀ (i : Nat) (answer : Except LayoutError CachedSchema) (cache : PlanCache),
    replies[i]? = some (answer, cache) →
      cache.size = ((calls.take (i + 1)).map CacheCall.key).toFinset.card ∧ cache.isEmpty = false

/-- Whatever a new cache is asked, it answers by the first call of each key. -/
theorem replies_correct (calls : List CacheCall) : AnswersByKey calls (replies {} calls) where
  length := length_replies {} calls
  outcome i call answer cache hcall hreply := by
    have hknown := lookup_of_le hcall hreply (Nat.le_refl i) hreply
    have houtcome := (Reflects.of_replies hreply).outcomes call.key
    rw [hknown, Option.map_some, eq_comm, Option.map_eq_some_iff] at houtcome
    obtain ⟨first, hfirst, hlayout⟩ := houtcome
    refine ⟨first, ?_, hlayout.symm⟩
    rw [← List.take_append_drop (i + 1) calls, List.find?_append, hfirst, Option.some_or]
  identity i j call call' schema schema' cache cache' := serial_eq_iff
  size i answer cache hreply := by
    refine ⟨(Reflects.of_replies hreply).size_eq, ?_⟩
    have hlt : i < calls.length := by
      rw [← length_replies {} calls]
      exact (List.getElem?_eq_some_iff.1 hreply).1
    have hknown := lookup_of_le (List.getElem?_eq_getElem hlt) hreply (Nat.le_refl i) hreply
    obtain ⟨slots⟩ := cache
    cases slots with
    | nil => cases hknown
    | cons => rfl

end PlanCache

end WireFormat
