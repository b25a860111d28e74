import Mathlib.Data.List.Basic
import WireFormat.Proofs.Length.Demands
import WireFormat.Proofs.Outcome

/-!
# Finding lengths in scopes

The scopes around a field are records with the feeds that they have been given so far, up to the
start of the element of the innermost list.  `Binder` keeps the two apart: the record, which never
changes, and the feeds, which grow.

* `Binder.after` — the frames after some demands have been answered;
* `Binder.Fresh` — the lengths asked for are still to be had;
* `Scope.bind_eq_ok_iff` — a list or text finds its length exactly if one field lends it and nothing
  has taken it, and then the feeds say so.
-/

namespace WireFormat

/-- A record around something and the feeds of the lengths that have been taken. -/
structure Binder where
  enclosure : Enclosure
  feeds : String → Option LengthFeed

namespace Binder

/-- The frame as a scope. -/
def scope (frame : Binder) : Scope :=
  .record frame.enclosure.typeName (Carrier.ofFields frame.enclosure.fields frame.feeds)
    (some (frame.enclosure.member.name, frame.enclosure.member.order))

/-- The frames after some demands from inside have been answered. -/
def after (demands : List Demand) : List Binder → List Binder
  | [] => []
  | frame :: rest =>
    let demands := demands.map (Demand.within frame.enclosure)
    ⟨frame.enclosure, fun key ↦ frame.feeds key <|> feedOf demands key⟩ :: after demands rest

/-- A record has given away none of the lengths that it carries twice, neither to two of the demands
nor to a demand and to something before it. -/
def Spares (fields : List FieldDescriptor) (feeds : String → Option LengthFeed)
    (demands : List Demand) : Prop :=
  ∀ key, fields.filter (FieldDescriptor.carries key) ≠ [] →
    (feeds key).toList.length + demands.countP (fun demand ↦ demand.key == key) ≤ 1

/-- The lengths asked for are still to be had. -/
def Fresh (demands : List Demand) (frames : List Binder) : Prop :=
  ∀ frame ∈ frames, Spares frame.enclosure.fields frame.feeds demands

end Binder

/-! ## Carriers -/

namespace Carrier

variable {fields : List FieldDescriptor} {feeds feeds' : String → Option LengthFeed}

/-- Only the feeds of keys that are carried matter. -/
theorem ofFields_congr (h : ∀ key, fields.filter (FieldDescriptor.carries key) ≠ [] →
    feeds key = feeds' key) : ofFields fields feeds = ofFields fields feeds' := by
  refine List.filterMap_congr fun field hmem ↦ ?_
  split
  · next hserialize =>
    cases hkey : field.lengthOf with
    | none => rfl
    | some key =>
      have hcarried : fields.filter (FieldDescriptor.carries key) ≠ [] :=
        List.ne_nil_of_mem (List.mem_filter.2
          ⟨hmem, FieldDescriptor.carries_iff.2 ⟨hserialize, hkey⟩⟩)
      simp [h key hcarried]
  · rfl

theorem filter_key_ofFields (key : String) :
    (ofFields fields feeds).filter (fun carrier ↦ carrier.key == key) =
      (fields.filter (FieldDescriptor.carries key)).map fun field ↦
        ⟨key, field.name, field.order, feeds key⟩ := by
  induction fields with
  | nil => rfl
  | cons field rest ih =>
    rw [ofFields] at ih
    rw [ofFields, List.filterMap_cons, List.filter_cons, FieldDescriptor.carries]
    cases hserialize : field.serialize with
    | false => simpa using ih
    | true =>
      cases hkey : field.lengthOf with
      | none => simpa using ih
      | some own =>
        by_cases hown : own = key
        · subst hown
          simpa using ih
        · simpa [hown] using ih

/-- Giving a key a feed changes what all its carriers have. -/
theorem map_setFeed_ofFields (key : String) (feed : LengthFeed) :
    (ofFields fields feeds).map (fun carrier ↦
      if carrier.key = key then { carrier with feed := some feed } else carrier) =
      ofFields fields fun other ↦ if other = key then some feed else feeds other := by
  rw [ofFields, ofFields, List.map_filterMap]
  refine List.filterMap_congr fun field _ ↦ ?_
  split
  · cases field.lengthOf with
    | none => rfl
    | some own => by_cases hown : own = key <;> simp [hown]
  · rfl

end Carrier

namespace Scope

variable {frames : List Binder} {outside : List Scope} {key : String} {measure : Measure}

/-! ## The carriers of a key -/

theorem candidates_cons (scope : Scope) (scopes : List Scope) : candidates key (scope :: scopes) =
    (scope.carriers.filter fun carrier ↦ carrier.key == key).map (fun carrier ↦ (0, carrier)) ++
      (candidates key scopes).map fun entry ↦ (entry.1 + 1, entry.2) := by
  simp only [candidates, List.zipIdx_cons, List.flatMap_cons, Nat.zero_add, List.zipIdx_succ,
    List.flatMap_map, List.map_flatMap, List.map_map]
  rfl

theorem candidates_map_scope_cons (frame : Binder) :
    candidates key (frame.scope :: frames.map Binder.scope) =
      (frame.enclosure.carriers key).map (fun field ↦
        (0, ⟨key, field.name, field.order, frame.feeds key⟩)) ++
        (candidates key (frames.map Binder.scope)).map fun entry ↦ (entry.1 + 1, entry.2) := by
  rw [candidates_cons, Binder.scope, carriers, Carrier.filter_key_ofFields, List.map_map]
  rfl

theorem candidates_eq_nil_iff : candidates key (frames.map Binder.scope) = [] ↔
    ∀ frame ∈ frames, frame.enclosure.carriers key = [] := by
  induction frames with
  | nil => simp [candidates]
  | cons frame rest ih => simp [candidates_map_scope_cons, ih]

/-- There is one candidate exactly if one of the frames has one carrier and the others have none. -/
theorem candidates_eq_singleton_iff {up : Nat} {carrier : Carrier} :
    candidates key (frames.map Binder.scope) = [(up, carrier)] ↔
      ∃ inner frame outer field, frames = inner ++ frame :: outer ∧ up = inner.length ∧
        frame.enclosure.carriers key = [field] ∧
        (∀ other ∈ inner, other.enclosure.carriers key = []) ∧
        (∀ other ∈ outer, other.enclosure.carriers key = []) ∧
        carrier = ⟨key, field.name, field.order, frame.feeds key⟩ := by
  induction frames generalizing up carrier with
  | nil => simp [candidates]
  | cons frame rest ih =>
    rw [List.map_cons, candidates_map_scope_cons, List.append_eq_singleton_iff]
    simp only [List.map_eq_nil_iff, candidates_eq_nil_iff, List.map_eq_singleton_iff,
      Prod.mk.injEq, Prod.exists, ih]
    constructor
    · rintro (⟨hown, up, carrier, ⟨inner, frame', outer, field, rfl, rfl, hfield, hinner, houter,
        rfl⟩, rfl, rfl⟩ | ⟨⟨field, hfield, rfl, rfl⟩, hrest⟩)
      · exact ⟨frame :: inner, frame', outer, field, rfl, rfl, hfield,
          List.forall_mem_cons.2 ⟨hown, hinner⟩, houter, rfl⟩
      · exact ⟨[], frame, rest, field, rfl, rfl, hfield, by simp, hrest, rfl⟩
    · rintro ⟨inner, frame', outer, field, hframes, rfl, hfield, hinner, houter, rfl⟩
      cases inner with
      | nil =>
        obtain ⟨rfl, rfl⟩ := List.cons.inj hframes
        exact .inr ⟨⟨field, hfield, rfl, rfl⟩, houter⟩
      | cons first inner =>
        obtain ⟨rfl, rfl⟩ := List.cons.inj hframes
        obtain ⟨hown, hinner⟩ := List.forall_mem_cons.1 hinner
        exact .inl ⟨hown, inner.length, _, ⟨inner, frame', outer, field, rfl, rfl, hfield, hinner,
          houter, rfl⟩, rfl, rfl⟩

/-! ## Feeds -/

/-- Answering a demand changes nothing about a record that does not carry the key. -/
theorem scope_after_of_carriers_eq_nil (demand : Demand) {frame : Binder}
    (h : frame.enclosure.carriers demand.key = []) :
    Binder.scope ⟨frame.enclosure, fun key ↦ frame.feeds key <|> feedOf [demand] key⟩ =
      frame.scope := by
  rw [Binder.scope, Binder.scope, Carrier.ofFields_congr fun key hkey ↦ ?_]
  have hne : demand.key ≠ key := by
    rintro rfl
    exact hkey h
  simp [feedOf, hne]

theorem map_scope_after_of_forall_nil (demand : Demand)
    (h : ∀ frame ∈ frames, frame.enclosure.carriers demand.key = []) :
    (Binder.after [demand] frames).map Binder.scope = frames.map Binder.scope := by
  induction frames generalizing demand with
  | nil => rfl
  | cons frame rest ih =>
    obtain ⟨hframe, hrest⟩ := List.forall_mem_cons.1 h
    rw [Binder.after, List.map_cons, List.map_cons, List.map_cons, List.map_nil,
      ih (demand.within frame.enclosure) hrest,
      scope_after_of_carriers_eq_nil (demand.within frame.enclosure) hframe]

/-- Setting the feed of the one carrier is answering the demand. -/
theorem modify_setFeed_eq (outside : List Scope) (demand : Demand)
    {inner outer : List Binder} {frame : Binder}
    (hinner : ∀ other ∈ inner, other.enclosure.carriers demand.key = [])
    (houter : ∀ other ∈ outer, other.enclosure.carriers demand.key = [])
    (hfresh : frame.feeds demand.key = none) :
    ((inner ++ frame :: outer).map Binder.scope ++ outside).modify inner.length
      (setFeed demand.key ⟨((demand.chain ++ (inner ++ [frame]).map Binder.enclosure).map
        fun enclosure ↦ enclosure.member.name).reverse, demand.measure⟩) =
      (Binder.after [demand] (inner ++ frame :: outer)).map Binder.scope ++ outside := by
  induction inner generalizing demand with
  | nil =>
    have houter' := map_scope_after_of_forall_nil (demand.within frame.enclosure) houter
    simp only [List.nil_append, List.map_cons, List.map_nil, List.length_nil, List.cons_append,
      List.modify_zero_cons, Binder.after, houter', List.cons.injEq, and_true, setFeed, Binder.scope,
      Carrier.map_setFeed_ofFields, record.injEq, true_and]
    refine Carrier.ofFields_congr fun key _ ↦ ?_
    by_cases hkey : key = demand.key
    · subst hkey
      simp [hfresh, feedOf, Demand.feed, Demand.path, Demand.within]
    · simp [hkey, feedOf, Ne.symm hkey]
  | cons first inner ih =>
    obtain ⟨hfirst, hinner⟩ := List.forall_mem_cons.1 hinner
    have hrest := ih (demand.within first.enclosure) hinner houter hfresh
    simp only [Demand.within, List.append_assoc, List.cons_append, List.nil_append] at hrest
    simp only [List.cons_append, List.map_cons, List.length_cons, List.modify_succ_cons,
      Binder.after, List.map_nil,
      scope_after_of_carriers_eq_nil (demand.within first.enclosure) hfirst]
    exact congrArg _ hrest

theorem from_map_enclosure_eq {inner outer : List Binder} {frame : Binder} {field : FieldDescriptor}
    (hfield : frame.enclosure.carriers key = [field])
    (hinner : ∀ other ∈ inner, other.enclosure.carriers key = []) :
    LengthSource.from ((inner ++ frame :: outer).map Binder.enclosure) key =
      ⟨key, inner.length⟩ := by
  rw [List.map_append, List.map_cons, LengthSource.from_eq (by simp [hfield])
    (List.forall_mem_map.2 hinner), List.length_map]

/-! ## Binding -/

theorem takeWhile_isRecord (houtside : outside.takeWhile isRecord = []) :
    (frames.map Binder.scope ++ outside).takeWhile isRecord = frames.map Binder.scope := by
  rw [List.takeWhile_append_of_pos, houtside, List.append_nil]
  simp [Binder.scope, isRecord]

theorem getElem?_bind_memberOrder? {inner outer : List Binder} {frame : Binder} :
    ((inner ++ frame :: outer).map Binder.scope ++ outside)[inner.length]?.bind memberOrder? =
      some frame.enclosure.member.order := by
  simp [Binder.scope, memberOrder?]

theorem filterMap_memberName? {inner outer : List Binder} {frame : Binder} :
    ((((inner ++ frame :: outer).map Binder.scope ++ outside).take (inner.length + 1)).reverse
      ).filterMap memberName? =
      (((inner ++ [frame]).map Binder.enclosure).map fun enclosure ↦
        enclosure.member.name).reverse := by
  have htake : ((inner ++ frame :: outer).map Binder.scope ++ outside).take (inner.length + 1) =
      (inner ++ [frame]).map Binder.scope := by
    simp [List.take_append, List.take_of_length_le]
  rw [htake, List.filterMap_reverse, List.filterMap_map, List.map_map]
  congr 1
  exact List.filterMap_eq_map ▸ rfl

/-- What becomes of a list or text whose length one field carries. -/
theorem bind_append_eq_ok_iff (houtside : outside.takeWhile isRecord = [])
    {inner outer : List Binder} {frame : Binder} {field : FieldDescriptor}
    (hfield : frame.enclosure.carriers key = [field])
    (hinner : ∀ other ∈ inner, other.enclosure.carriers key = [])
    (houter : ∀ other ∈ outer, other.enclosure.carriers key = [])
    {result : LengthSource × List Scope} :
    bind ((inner ++ frame :: outer).map Binder.scope ++ outside) key measure = .ok result ↔
      field.order < frame.enclosure.member.order ∧ frame.feeds key = none ∧
      result = (.from ((inner ++ frame :: outer).map Binder.enclosure) key,
        (Binder.after [⟨[], key, measure⟩] (inner ++ frame :: outer)).map Binder.scope ++
          outside) := by
  have hcandidates := candidates_eq_singleton_iff.2
    ⟨inner, frame, outer, field, rfl, rfl, hfield, hinner, houter, rfl⟩
  unfold bind
  dsimp only
  rw [takeWhile_isRecord houtside, hcandidates]
  dsimp only
  rw [getElem?_bind_memberOrder?, filterMap_memberName?, from_map_enclosure_eq hfield hinner]
  dsimp only
  rw [pure_bind]
  by_cases hle : frame.enclosure.member.order ≤ field.order
  · simp [hle, Nat.not_lt.2 hle]
  · rw [if_neg hle, and_iff_right (Nat.not_le.1 hle)]
    cases hfresh : frame.feeds key with
    | some feed =>
      rw [Option.isSome_some, if_pos rfl, throw_bind]
      simp
    | none =>
      have hmodify := modify_setFeed_eq outside ⟨[], key, measure⟩ hinner
        houter hfresh
      rw [List.nil_append] at hmodify
      simp only [Option.isSome_none, Bool.false_eq_true, if_false, hmodify,
        pure_eq_ok_iff, true_and]
      exact eq_comm

/-- A list or text finds its length exactly if one field lends it that has not been taken. -/
theorem bind_eq_ok_iff (houtside : outside.takeWhile isRecord = [])
    {result : LengthSource × List Scope} :
    bind (frames.map Binder.scope ++ outside) key measure = .ok result ↔
      Lends key (frames.map Binder.enclosure) ∧
      (∀ frame ∈ frames, frame.enclosure.carriers key ≠ [] → frame.feeds key = none) ∧
      result = (.from (frames.map Binder.enclosure) key,
        (Binder.after [⟨[], key, measure⟩] frames).map Binder.scope ++ outside) := by
  constructor
  · intro h
    have hcandidates : ∃ up carrier,
        candidates key (frames.map Binder.scope) = [(up, carrier)] := by
      unfold bind at h
      dsimp only at h
      rw [takeWhile_isRecord houtside] at h
      split at h
      · split at h <;> cases h
      · next up carrier hcandidates => exact ⟨up, carrier, hcandidates⟩
      · cases h
    obtain ⟨up, carrier, hcandidates⟩ := hcandidates
    obtain ⟨inner, frame, outer, field, rfl, -, hfield, hinner, houter, -⟩ :=
      candidates_eq_singleton_iff.1 hcandidates
    obtain ⟨horder, hfresh, rfl⟩ :=
      (bind_append_eq_ok_iff houtside hfield hinner houter).1 h
    refine ⟨?_, ?_, rfl⟩
    · rw [List.map_append, List.map_cons]
      exact .intro hfield (List.forall_mem_map.2 hinner) (List.forall_mem_map.2 houter) horder
    · intro other hmem hcarries
      rcases List.mem_append.1 hmem with hmem | hmem
      · exact (hcarries (hinner other hmem)).elim
      · rcases List.mem_cons.1 hmem with rfl | hmem
        · exact hfresh
        · exact (hcarries (houter other hmem)).elim
  · rintro ⟨hlends, hfresh, rfl⟩
    generalize hframes : frames.map Binder.enclosure = enclosures at hlends
    obtain ⟨hfield, hinner, houter, horder⟩ := hlends
    obtain ⟨inner, rest, rfl, rfl, hrest⟩ := List.map_eq_append_iff.1 hframes
    obtain ⟨frame, outer, rfl, rfl, rfl⟩ := List.map_eq_cons_iff.1 hrest
    rw [← hframes, bind_append_eq_ok_iff houtside hfield (List.forall_mem_map.1 hinner)
      (List.forall_mem_map.1 houter)]
    exact ⟨horder, hfresh frame (by simp) (by simp [hfield]), rfl⟩

end Scope

end WireFormat
