import Mathlib.Data.List.Forall2
import WireFormat.Json

/-!
# JSON values in short

What is written as JSON has all its members.  Someone who writes the same by hand leaves out what is
null or has a default anyway, puts the members in any order and adds members of his own.
`Json.Abbreviates` says that one JSON value is another one in short in this sense, at any depth.

* `Json.Says` — what the members of an object say of a name, directly or by leaving it out;
* `Json.Recovers` — a reader that finds what has been written in all that is it in short;
* `Json.Recovers.required_eq`, `Json.Recovers.optional_eq`, `Json.Recovers.defaulted_eq`,
  `Json.Recovers.exists_array` — such readers of values make such readers of members.
-/

namespace WireFormat.Json

/-- The members that have a default other than null. -/
def defaults : List (String × Json) :=
  [("pad_after", bool false), ("serialize", bool true), ("null_terminated", bool false),
    ("enums", array [])]

/-- What a member is written as if nothing is said of it. -/
def IsDefault (name : String) (json : Json) : Prop := json = null ∨ (name, json) ∈ defaults

mutual

/-- A JSON value is another one in short: in any object, members that are null or have their default
may be left out, the others may come in any order, and members of other names may be added. -/
inductive Abbreviates : Json → Json → Prop where
  | same (json : Json) : Abbreviates json json
  | array {short full : List Json} (elements : List.Forall₂ Abbreviates short full) :
      Abbreviates (.array short) (.array full)
  | object {short full : List (String × Json)} (distinct : (short.map Prod.fst).Nodup)
      (members : AbbreviatesAll short full) : Abbreviates (.object short) (.object full)

/-- The members of an object are those of another one in short. -/
inductive AbbreviatesAll : List (String × Json) → List (String × Json) → Prop where
  | nil (short : List (String × Json)) : AbbreviatesAll short []
  | keep {name : String} {value json : Json} {short full : List (String × Json)}
      (found : short.lookup name = some value) (abbreviates : Abbreviates value json)
      (rest : AbbreviatesAll short full) : AbbreviatesAll short ((name, json) :: full)
  | leave {name : String} {json : Json} {short full : List (String × Json)}
      (missing : short.lookup name = none) (isDefault : IsDefault name json)
      (rest : AbbreviatesAll short full) : AbbreviatesAll short ((name, json) :: full)

end

/-- Some members say of a name what is written in full: they have it with that value in short, or
they leave it out and the value is its default. -/
def Says (members : List (String × Json)) (name : String) (json : Json) : Prop :=
  (∃ value, members.lookup name = some value ∧ value.Abbreviates json) ∨
    members.lookup name = none ∧ IsDefault name json

/-- Whether a JSON value has nothing inside that could be left out. -/
def isLeaf : Json → Bool
  | array _ | object _ => false
  | _ => true

variable {α : Type} {read : Json → Option α} {write : α → Json} {name : String}
  {json full : Json} {members short : List (String × Json)} {a : α}

theorem object_ne_null (members : List (String × Json)) : object members ≠ null := nofun

theorem not_isDefault (hnull : full ≠ null) (hname : name ∉ defaults.map Prod.fst) :
    ¬ IsDefault name full := by
  rintro (h | h)
  · exact hnull h
  · exact hname (List.mem_map_of_mem h)

theorem AbbreviatesAll.says_of_lookup (h : AbbreviatesAll short members)
    (hfull : members.lookup name = some full) : Says short name full := by
  induction members with
  | nil => cases hfull
  | cons member members ih =>
    rw [List.lookup_cons] at hfull
    cases h with
    | keep found abbreviates rest =>
      split at hfull
      · next hname =>
        obtain rfl := beq_iff_eq.1 hname
        cases hfull
        exact .inl ⟨_, found, abbreviates⟩
      · exact ih rest hfull
    | leave missing isDefault rest =>
      split at hfull
      · next hname =>
        obtain rfl := beq_iff_eq.1 hname
        cases hfull
        exact .inr ⟨missing, isDefault⟩
      · exact ih rest hfull

namespace Abbreviates

theorem exists_object (h : json.Abbreviates (.object members)) : ∃ short, json = .object short ∧
    ∀ name full, members.lookup name = some full → Says short name full := by
  cases h with
  | same => exact ⟨members, rfl, fun name full hfull ↦ .inl ⟨full, hfull, .same full⟩⟩
  | object _ hmembers => exact ⟨_, rfl, fun _ _ ↦ hmembers.says_of_lookup⟩

theorem exists_forall₂ {full : List Json} (h : json.Abbreviates (.array full)) :
    ∃ short, json = .array short ∧ List.Forall₂ Abbreviates short full := by
  cases h with
  | same => exact ⟨full, rfl, List.forall₂_same.2 fun json _ ↦ .same json⟩
  | array elements => exact ⟨_, rfl, elements⟩

theorem eq_of_isLeaf (h : json.Abbreviates full) (hleaf : full.isLeaf) : json = full := by
  cases h with
  | same => rfl
  | array | object => cases hleaf

theorem ne_null (h : json.Abbreviates full) (hfull : full ≠ null) : json ≠ null := by
  rintro rfl
  cases h
  exact hfull rfl

end Abbreviates

/-! ## Members -/

/-- A member that has to be there is read if its value is. -/
theorem Says.required_eq (h : Says members name full)
    (hread : ∀ json, json.Abbreviates full → read json = some a)
    (hdefault : ¬ IsDefault name full) : required read name members = some a := by
  rcases h with ⟨value, hfound, hvalue⟩ | ⟨-, hfull⟩
  · rw [required, hfound]
    exact hread value hvalue
  · exact (hdefault hfull).elim

/-- Whatever has been written is read back from each JSON value that is it in short. -/
structure Recovers (read : Json → Option α) (write : α → Json) : Prop where
  read_eq : ∀ a json, json.Abbreviates (write a) → read json = some a
  ne_null : ∀ a, write a ≠ null

namespace Recovers

theorem of_isLeaf (hleaf : ∀ a, (write a).isLeaf) (hnull : ∀ a, write a ≠ null)
    (hread : ∀ a, read (write a) = some a) : Recovers read write := by
  refine ⟨fun a json h ↦ ?_, hnull⟩
  rw [h.eq_of_isLeaf (hleaf a), hread]

theorem required_eq (hread : Recovers read write) (h : Says members name (write a))
    (hname : name ∉ defaults.map Prod.fst) : required read name members = some a :=
  h.required_eq (hread.read_eq a) (not_isDefault (hread.ne_null a) hname)

theorem optional_eq (hread : Recovers read write) {a : Option α}
    (h : Says members name (ofOption write a)) (hname : name ∉ defaults.map Prod.fst) :
    optional read name members = some a := by
  rcases h with ⟨value, hfound, hvalue⟩ | ⟨hmissing, hdefault⟩
  · cases a with
    | none =>
      obtain rfl := hvalue.eq_of_isLeaf rfl
      rw [optional, hfound]
      rfl
    | some a =>
      have hnull := hvalue.ne_null (hread.ne_null a)
      rw [optional, hfound]
      split
      · next hnone => cases hnone
      · next hsome => exact (hnull (Option.some.inj hsome)).elim
      · next hsome =>
        obtain rfl := Option.some.inj hsome
        rw [hread.read_eq a value hvalue, Option.map_some]
  · cases a with
    | none => rw [optional, hmissing]
    | some a => exact (not_isDefault (hread.ne_null a) hname hdefault).elim

theorem defaulted_eq (hread : Recovers read write) {default : α} (h : Says members name (write a))
    (hdefault : IsDefault name (write a) → a = default) :
    defaulted default read name members = some a := by
  rcases h with ⟨value, hfound, hvalue⟩ | ⟨hmissing, hfull⟩
  · rw [defaulted, hfound]
    exact hread.read_eq a value hvalue
  · rw [defaulted, hmissing, hdefault hfull]

/-! ## Arrays -/

theorem mapM_eq (h : Recovers read write) {elements : List Json} {l : List α}
    (helements : List.Forall₂ Abbreviates elements (l.map write)) :
    elements.mapM read = some l := by
  induction l generalizing elements with
  | nil =>
    cases helements
    rfl
  | cons a l ih =>
    cases helements with
    | cons helement hrest =>
      rw [List.mapM_cons, h.read_eq a _ helement, ih hrest]
      rfl

theorem exists_array (hread : Recovers read write) {l : List α}
    (h : Says members name (.array (l.map write))) (hname : name ∉ defaults.map Prod.fst) :
    ∃ elements, required array? name members = some elements ∧ elements.mapM read = some l := by
  rcases h with ⟨value, hfound, hvalue⟩ | ⟨-, hdefault⟩
  · obtain ⟨elements, rfl, helements⟩ := hvalue.exists_forall₂
    refine ⟨elements, ?_, hread.mapM_eq helements⟩
    rw [required, hfound]
    rfl
  · exact (not_isDefault (by nofun) hname hdefault).elim

theorem exists_array_of_defaulted (hread : Recovers read write) {l : List α}
    (h : Says members name (.array (l.map write))) :
    ∃ elements, defaulted [] array? name members = some elements ∧ elements.mapM read = some l := by
  rcases h with ⟨value, hfound, hvalue⟩ | ⟨hmissing, hdefault⟩
  · obtain ⟨elements, rfl, helements⟩ := hvalue.exists_forall₂
    refine ⟨elements, ?_, hread.mapM_eq helements⟩
    rw [defaulted, hfound]
    rfl
  · have hnil : name = "enums" ∧ l = [] := by simpa [IsDefault, defaults] using hdefault
    obtain ⟨-, rfl⟩ := hnil
    refine ⟨[], ?_, rfl⟩
    rw [defaulted, hmissing]

end Recovers

theorem recovers_string : Recovers string? string :=
  .of_isLeaf (fun _ ↦ rfl) nofun fun _ ↦ rfl

theorem recovers_bool : Recovers bool? bool :=
  .of_isLeaf (fun _ ↦ rfl) nofun fun _ ↦ rfl

end WireFormat.Json
