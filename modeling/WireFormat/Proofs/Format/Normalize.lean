import WireFormat.Proofs.Format.Writes
import WireFormat.Proofs.Layout.Coherent
import WireFormat.Proofs.Text.Transcode

/-!
# Values as they are read back

A value that is written and read again need not be the same.  `Descriptor.normalize` says what
becomes of it: lengths are those of what takes them, fields that are not on the wire have their
defaults, and the free slots of a list hold its default.

* `Descriptor.normalize` — the value that is read back;
* `Descriptor.NulFree` — no text holds the NUL that would end it when it is read;
* `Descriptor.nulFree_of_default?` — defaults hold none;
* `Descriptor.reread` — the value that is read back where texts may hold NUL.
-/

namespace WireFormat

/-! ## What is read back -/

/-- The items of a list with free slots, if only the number of slots says how many there are. -/
def SizePolicy.extended {κ : Type} (policy : SizePolicy κ) (default? : Option Value)
    (items : List Value) : List Value :=
  match policy with
  | .fixed slots =>
    items ++ (default?.map (List.replicate (slots - items.length))).getD []
  | .keyed _ | .padded _ _ => items

/-- A length as a value of the field that carries it. -/
def DescriptorKind.lengthValue? (length : Nat) : DescriptorKind → Option Value
  | .scalar (.integer kind) | .bits .integer kind _ _ =>
    some (.integer kind (BitVec.ofNat kind.bits length))
  | _ => none

/-- What becomes of a field by itself.  If it carries a length, it is that of what the length
counts, otherwise what becomes of the member of its name. -/
def FieldDescriptor.normalizeOwn? (demands : List Demand) (members : Members) (name : String)
    (kind : DescriptorKind) (lengthOf : Option String) (normalize : Value → Value) : Option Value :=
  match lengthOf with
  | some key => do
    let feed ← feedOf demands key
    kind.lengthValue? (← feed.count (.record members))
  | none => (members.find? name).map normalize

mutual

/-- What a value is read back as. -/
def Descriptor.normalize : Descriptor → Value → Value
  | ⟨kind, _, _, _⟩, value => kind.normalize value

/-- What a value of a kind is read back as. -/
def DescriptorKind.normalize : DescriptorKind → Value → Value
  | .bits content repr width _, value =>
    if width = 0 then content.flavor.zero (.integer repr) else value
  | .list element size, .list items =>
    .list ((size.extended element.default? items).map element.normalize)
  | .record name fields, .record members =>
    .ofMembers (FieldDescriptor.normalizeAll (FieldDescriptor.demandsAll name fields fields) members
      fields ++ FieldDescriptor.skipped fields)
  | _, value => value

/-- What the members of a record are read back as, those that are on the wire. -/
def FieldDescriptor.normalizeAll (demands : List Demand) (members : Members) :
    List FieldDescriptor → List (String × Value)
  | [] => []
  | ⟨name, _, descriptor, serialize, lengthOf, _⟩ :: rest =>
    (if serialize then
      ((FieldDescriptor.normalizeOwn? demands members name descriptor.kind lengthOf
        descriptor.normalize).map fun value ↦ (name, value)).toList
    else []) ++ FieldDescriptor.normalizeAll demands members rest

end

/-! ## Texts without NUL -/

mutual

/-- No text holds NUL, where NUL would end it when it is read. -/
def Descriptor.NulFree : Descriptor → Value → Prop
  | ⟨kind, _, _, _⟩, value => kind.NulFree value

/-- No text in a value of a kind holds NUL, where NUL would end it when it is read. -/
def DescriptorKind.NulFree : DescriptorKind → Value → Prop
  | .text encoding (.sized (.fixed _)), .text text =>
    encoding.isNullTerminable → Char.ofNat 0 ∉ text.toList
  | .list element _, .list items => ∀ item ∈ items, element.NulFree item
  | .record _ fields, .record members => FieldDescriptor.NulFreeAll members fields
  | _, _ => True

/-- No text in the members of a record holds NUL, where NUL would end it when it is read. -/
def FieldDescriptor.NulFreeAll (members : Members) : List FieldDescriptor → Prop
  | [] => True
  | ⟨name, _, descriptor, serialize, lengthOf, _⟩ :: rest =>
    (serialize → lengthOf = none → ∀ value ∈ members.find? name, descriptor.NulFree value) ∧
      FieldDescriptor.NulFreeAll members rest

end

/-! ## Members -/

namespace Members

theorem mem_or_find?_of_foldl_insert {name : String} {value : Value}
    {pairs : List (String × Value)} {members : Members}
    (h : find? name (pairs.foldl (fun members pair ↦ insert pair.1 pair.2 members) members) =
      some value) : (name, value) ∈ pairs ∨ find? name members = some value := by
  induction pairs generalizing members with
  | nil => exact .inr h
  | cons pair rest ih =>
    rcases ih h with hmem | hfind
    · exact .inl (List.mem_cons_of_mem _ hmem)
    · by_cases hname : name = pair.1
      · subst hname
        rw [find?_insert_self] at hfind
        cases hfind
        exact .inl List.mem_cons_self
      · rw [find?_insert_of_ne hname] at hfind
        exact .inr hfind

/-- The members of a list of pairs are among the pairs. -/
theorem mem_of_find?_ofList {name : String} {value : Value} {pairs : List (String × Value)}
    (h : find? name (ofList pairs) = some value) : (name, value) ∈ pairs := by
  rcases mem_or_find?_of_foldl_insert h with hmem | hfind
  · exact hmem
  · cases hfind

theorem ofList_append (pairs more : List (String × Value)) :
    ofList (pairs ++ more) =
      more.foldl (fun members pair ↦ insert pair.1 pair.2 members) (ofList pairs) := by
  rw [ofList, List.foldl_append]
  rfl

theorem insert_ofList (pairs : List (String × Value)) (name : String) (value : Value) :
    (ofList pairs).insert name value = ofList (pairs ++ [(name, value)]) := by
  rw [ofList_append]
  rfl

end Members

/-! ## Fields -/

namespace FieldDescriptor

variable {demands : List Demand} {members : Members} {field : FieldDescriptor}
  {fields rest : List FieldDescriptor}

theorem normalizeAll_cons : normalizeAll demands members (field :: rest) =
    (if field.serialize then
      ((normalizeOwn? demands members field.name field.descriptor.kind field.lengthOf
        field.descriptor.normalize).map fun value ↦ (field.name, value)).toList
    else []) ++ normalizeAll demands members rest := by
  cases field
  rfl

/-- The members that are made of the fields on the wire, each by itself. -/
def collect (own? : FieldDescriptor → Option Value) (fields : List FieldDescriptor) :
    List (String × Value) :=
  fields.filterMap fun field ↦
    if field.serialize then (own? field).map fun value ↦ (field.name, value) else none

theorem collect_cons (own? : FieldDescriptor → Option Value) : collect own? (field :: rest) =
    (if field.serialize then
      ((own? field).map fun value ↦ (field.name, value)).toList
    else []) ++ collect own? rest := by
  rw [collect, List.filterMap_cons]
  cases field.serialize with
  | false => rfl
  | true => cases own? field <;> rfl

theorem normalizeAll_eq_collect : normalizeAll demands members fields =
    collect (fun field ↦ normalizeOwn? demands members field.name field.descriptor.kind
      field.lengthOf field.descriptor.normalize) fields := by
  induction fields with
  | nil => rfl
  | cons field rest ih => rw [normalizeAll_cons, collect_cons, ih]

theorem nulFreeAll_iff : NulFreeAll members fields ↔
    ∀ field ∈ fields, field.serialize → field.lengthOf = none →
      ∀ value ∈ members.find? field.name, field.descriptor.NulFree value := by
  induction fields with
  | nil =>
    rw [NulFreeAll]
    simp
  | cons field rest ih =>
    rw [List.forall_mem_cons, ← ih]
    cases field
    rfl

theorem exists_default?_of_mem_defaults? {pairs : List (String × Value)} {name : String}
    {value : Value} (h : defaults? fields = some pairs) (hmem : (name, value) ∈ pairs) :
    ∃ field ∈ fields, field.name = name ∧ field.descriptor.default? = some value := by
  induction fields generalizing pairs with
  | nil =>
    cases h
    cases hmem
  | cons field rest ih =>
    obtain ⟨own, order, descriptor, serialize, lengthOf, padAfter⟩ := field
    rw [defaults?] at h
    obtain ⟨first, hfirst, h⟩ := Option.bind_eq_some_iff.1 h
    obtain ⟨more, hmore, h⟩ := Option.bind_eq_some_iff.1 h
    cases h
    rcases List.mem_cons.1 hmem with hpair | hmem
    · cases hpair
      exact ⟨_, List.mem_cons_self, rfl, hfirst⟩
    · obtain ⟨field, hfield, hdefault⟩ := ih hmore hmem
      exact ⟨field, List.mem_cons_of_mem _ hfield, hdefault⟩

end FieldDescriptor

/-! ## Defaults -/

/-- A default holds no text that NUL could end. -/
theorem Descriptor.nulFree_of_default? {descriptor : Descriptor} {value : Value}
    (hcoherent : descriptor.Everywhere Coherent) (h : descriptor.default? = some value) :
    descriptor.NulFree value := by
  induction descriptor using Descriptor.induction generalizing value with
  | step descriptor _ ihfields =>
    obtain ⟨kind, byteOrder, hasFixedSize, minSize⟩ := descriptor
    cases kind with
    | text encoding size =>
      cases h
      cases size with
      | nullTerminated => trivial
      | sized policy =>
        cases policy with
        | fixed slots => exact fun _ ↦ by decide
        | _ => trivial
    | list element size =>
      cases h
      exact fun item hmem ↦ (List.not_mem_nil hmem).elim
    | record name fields =>
      obtain ⟨pairs, hpairs, rfl⟩ := Option.map_eq_some_iff.1 h
      refine FieldDescriptor.nulFreeAll_iff.2 fun field hfield _ _ value hvalue ↦ ?_
      obtain ⟨own, hown, hname, hdefault⟩ :=
        FieldDescriptor.exists_default?_of_mem_defaults? hpairs
          (Members.mem_of_find?_ofList hvalue)
      obtain rfl : own = field :=
        List.inj_on_of_nodup_map hcoherent.here.1.names hown hfield hname
      exact ihfields own hown (hcoherent.of_field hown) hdefault
    | custom codec context => trivial
    | scalar kind | boolean repr | enum repr type | bits content repr width container =>
      trivial

/-! ## Texts that NUL ends -/

/-- Whether the first NUL ends a text when it is read: only the number of slots says how many bytes
it has, and zeros fill those that are free. -/
def TextSize.endsAtNul {κ : Type} (encoding : Encoding) : TextSize κ → Bool
  | sized (.fixed _) => encoding.isNullTerminable
  | _ => false

/-- What a text is read back as. -/
def TextSize.kept {κ : Type} (size : TextSize κ) (encoding : Encoding) (text : String) : String :=
  if size.endsAtNul encoding then Encoding.untilNul text else text

theorem TextSize.kept_eq_self_iff {κ : Type} {size : TextSize κ} {encoding : Encoding}
    {text : String} : size.kept encoding text = text ↔
      (size.endsAtNul encoding → Char.ofNat 0 ∉ text.toList) := by
  rw [kept]
  split
  · next h => exact Encoding.untilNul_eq_self_iff.trans ⟨fun hnul _ ↦ hnul, fun hnul ↦ hnul h⟩
  · next h => exact ⟨fun _ hends ↦ (h hends).elim, fun _ ↦ rfl⟩

mutual

/-- What a value is read back as, be there NUL in its texts or not. -/
def Descriptor.reread : Descriptor → Value → Value
  | ⟨kind, _, _, _⟩, value => kind.reread value

/-- What a value of a kind is read back as, be there NUL in its texts or not. -/
def DescriptorKind.reread : DescriptorKind → Value → Value
  | .text encoding size, .text text => .text (size.kept encoding text)
  | .list element size, .list items =>
    .list ((size.extended element.default? items).map element.reread)
  | .record name fields, .record members =>
    .ofMembers (FieldDescriptor.rereadAll (FieldDescriptor.demandsAll name fields fields) members
      fields ++ FieldDescriptor.skipped fields)
  | kind, value => kind.normalize value

/-- What the members of a record are read back as, those that are on the wire. -/
def FieldDescriptor.rereadAll (demands : List Demand) (members : Members) :
    List FieldDescriptor → List (String × Value)
  | [] => []
  | ⟨name, _, descriptor, serialize, lengthOf, _⟩ :: rest =>
    (if serialize then
      ((FieldDescriptor.normalizeOwn? demands members name descriptor.kind lengthOf
        descriptor.reread).map fun value ↦ (name, value)).toList
    else []) ++ FieldDescriptor.rereadAll demands members rest

end

/-- In a list there are its items, and after them maybe the default. -/
theorem SizePolicy.mem_of_extended {κ : Type} {policy : SizePolicy κ} {default? : Option Value}
    {items : List Value} {item : Value} (h : item ∈ policy.extended default? items) :
    item ∈ items ∨ default? = some item := by
  cases policy with
  | fixed slots =>
    rcases List.mem_append.1 h with hitem | hfree
    · exact .inl hitem
    · cases default? with
      | none => cases hfree
      | some other => exact .inr (congrArg some (List.eq_of_mem_replicate hfree).symm)
  | keyed key | padded key slots => exact .inl h

namespace FieldDescriptor

variable {demands : List Demand} {members : Members} {field : FieldDescriptor}
  {fields rest : List FieldDescriptor}

theorem rereadAll_cons : rereadAll demands members (field :: rest) =
    (if field.serialize then
      ((normalizeOwn? demands members field.name field.descriptor.kind field.lengthOf
        field.descriptor.reread).map fun value ↦ (field.name, value)).toList
    else []) ++ rereadAll demands members rest := by
  cases field
  rfl

theorem rereadAll_eq_collect : rereadAll demands members fields =
    collect (fun field ↦ normalizeOwn? demands members field.name field.descriptor.kind
      field.lengthOf field.descriptor.reread) fields := by
  induction fields with
  | nil => rfl
  | cons field rest ih => rw [rereadAll_cons, collect_cons, ih]

/-- Fields that are read back as they are normalized make the same members. -/
theorem rereadAll_eq_normalizeAll
    (h : ∀ field ∈ fields, field.serialize → field.lengthOf = none →
      ∀ value ∈ members.find? field.name,
        field.descriptor.reread value = field.descriptor.normalize value) :
    rereadAll demands members fields = normalizeAll demands members fields := by
  rw [rereadAll_eq_collect, normalizeAll_eq_collect]
  refine List.filterMap_congr fun field hmem ↦ ?_
  cases hserialize : field.serialize with
  | false => rfl
  | true =>
    refine congrArg (Option.map _) ?_
    dsimp only
    cases hlength : field.lengthOf with
    | none => exact Option.map_congr (h field hmem hserialize hlength)
    | some key => rfl

end FieldDescriptor

/-- Without NUL, a value is read back as it is normalized. -/
theorem Descriptor.reread_eq_normalize {descriptor : Descriptor} {value : Value}
    (hcoherent : descriptor.Everywhere Coherent) (h : descriptor.NulFree value) :
    descriptor.reread value = descriptor.normalize value := by
  induction descriptor using Descriptor.induction generalizing value with
  | step descriptor ihelement ihfields =>
    obtain ⟨kind, byteOrder, hasFixedSize, minSize⟩ := descriptor
    cases kind with
    | text encoding size =>
      cases value with
      | text text =>
        change Value.text (size.kept encoding text) = Value.text text
        rw [TextSize.kept_eq_self_iff.2]
        intro hends
        cases size with
        | nullTerminated => cases hends
        | sized policy =>
          cases policy with
          | fixed slots => exact h hends
          | _ => cases hends
      | _ => rfl
    | list element size =>
      cases value with
      | list items =>
        change Value.list _ = Value.list _
        refine congrArg Value.list (List.map_congr_left fun item hmem ↦ ?_)
        exact ihelement element rfl (hcoherent.of_element rfl)
          ((SizePolicy.mem_of_extended hmem).elim (h item)
            (nulFree_of_default? (hcoherent.of_element rfl)))
      | _ => rfl
    | record name fields =>
      cases value with
      | record members =>
        change Value.ofMembers _ = Value.ofMembers _
        rw [FieldDescriptor.rereadAll_eq_normalizeAll]
        intro field hmem hserialize hlength value hvalue
        exact ihfields field hmem (hcoherent.of_field hmem)
          (FieldDescriptor.nulFreeAll_iff.1 h field hmem hserialize hlength value hvalue)
      | _ => rfl
    | _ => rfl

end WireFormat
