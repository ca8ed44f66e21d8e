import Mathlib.Data.List.Nodup
import Recast.Json.Record

/-!
# How records are spelled

A record is spelled by the members of an object, some of its fields given and the others left out
(`Json.spelled`). If the names of the fields are distinct, then a reader that looks for these names
finds each field as it was given (`Json.lookup_spelled`). What is left out is read as the value for
its absence, so a field reads back if the writer leaves it out for that value only: `Json.ReadsAs`
says this of one field, and there is a lemma for each way to write one.

Then the depth of a value and its usability are followed into containers. The last part puts all
this together for the values of one sort: `Json.Spells` says that they are written as records of
some layout, and what follows for reading them is stated once for all sorts.
-/

set_option autoImplicit false

namespace Recast.Json

variable {α : Type}

/-! ## Members of an object -/

/-- An object without repeated keys has each of its members under its key. -/
theorem lookup_of_mem {members : List (String × Json)} (hnodup : (members.map Prod.fst).Nodup)
    {name : String} {j : Json} (h : (name, j) ∈ members) : members.lookup name = some j := by
  obtain ⟨before, after, rfl⟩ := List.append_of_mem h
  apply List.lookup_eq_some_iff.2
  refine ⟨before, after, rfl, ?_⟩
  intro member hmember
  rw [List.map_append, List.map_cons, List.nodup_middle, List.nodup_cons, List.mem_append,
    not_or] at hnodup
  rw [bne_iff_ne]
  intro heq
  apply hnodup.1.1
  exact List.mem_map.2 ⟨member, hmember, heq.symm⟩

/-- Under a key that no member has there is nothing. -/
theorem lookup_of_not_mem {members : List (String × Json)} {name : String}
    (h : name ∉ members.map Prod.fst) : members.lookup name = none := by
  apply List.lookup_eq_none_iff.2
  intro member hmember
  rw [bne_iff_ne]
  rintro rfl
  exact h (List.mem_map_of_mem hmember)

/-- A record knows all members of an object whose keys are names of its own, each once. -/
theorem known?_eq_some {names : List String} {members : List (String × Json)}
    (hnames : ∀ name ∈ members.map Prod.fst, name ∈ names)
    (hnodup : (members.map Prod.fst).Nodup) : known? names members = some members := by
  have hall : members.filter (fun member => names.contains member.1) = members := by
    apply List.filter_eq_self.2
    intro member hmember
    exact List.contains_iff_mem.2 (hnames member.1 (List.mem_map_of_mem hmember))
  simp only [known?, hall, if_pos hnodup]

/-! ## Spelling -/

/-- The members of an object in which some fields are given and the others left out. -/
def spelled (fields : List (String × Option Json)) : List (String × Json) :=
  fields.flatMap fun field => fieldIf field.1 field.2

theorem mem_fieldIf_iff {name : String} {given : Option Json} {member : String × Json} :
    member ∈ fieldIf name given ↔ name = member.1 ∧ given = some member.2 := by
  cases given with
  | none => simp [fieldIf]
  | some j =>
    obtain ⟨key, value⟩ := member
    simp only [fieldIf, List.mem_singleton, Prod.mk.injEq, Option.some.injEq]
    constructor
    · rintro ⟨rfl, rfl⟩
      exact ⟨rfl, rfl⟩
    · rintro ⟨rfl, rfl⟩
      exact ⟨rfl, rfl⟩

theorem mem_spelled_iff {fields : List (String × Option Json)} {member : String × Json} :
    member ∈ spelled fields ↔ (member.1, some member.2) ∈ fields := by
  rw [spelled, List.mem_flatMap]
  constructor
  · rintro ⟨⟨name, given⟩, hfield, hmember⟩
    obtain ⟨rfl, rfl⟩ := mem_fieldIf_iff.1 hmember
    exact hfield
  · intro h
    exact ⟨_, h, mem_fieldIf_iff.2 ⟨rfl, rfl⟩⟩

/-- The keys are the names of the fields that are given, in order. -/
theorem keys_spelled (fields : List (String × Option Json)) :
    (spelled fields).map Prod.fst = (fields.filter fun field => field.2.isSome).map Prod.fst := by
  induction fields with
  | nil => rfl
  | cons field fields ih =>
    obtain ⟨name, given⟩ := field
    cases given with
    | none => exact ih
    | some j => exact congrArg (name :: ·) ih

theorem keys_spelled_sublist (fields : List (String × Option Json)) :
    ((spelled fields).map Prod.fst).Sublist (fields.map Prod.fst) := by
  rw [keys_spelled]
  exact List.filter_sublist.map Prod.fst

section Distinct

variable {fields : List (String × Option Json)} {names : List String} (hnodup : names.Nodup)
  (hnames : fields.map Prod.fst = names)

include hnodup hnames

/-- A record with these names knows everything that is spelled. -/
theorem known?_spelled : known? names (spelled fields) = some (spelled fields) := by
  have hsublist := keys_spelled_sublist fields
  rw [hnames] at hsublist
  exact known?_eq_some (fun name hname => hsublist.mem hname) (hnodup.sublist hsublist)

/-- Each field is found as it was given. -/
theorem lookup_spelled (name : String) {given : Option Json} (h : (name, given) ∈ fields) :
    (spelled fields).lookup name = given := by
  subst hnames
  have hkeys : ((spelled fields).map Prod.fst).Nodup :=
    hnodup.sublist (keys_spelled_sublist fields)
  cases given with
  | some j => exact lookup_of_mem hkeys (mem_spelled_iff.2 h)
  | none =>
    apply lookup_of_not_mem
    intro hkey
    obtain ⟨⟨key, value⟩, hmember, rfl⟩ := List.mem_map.1 hkey
    -- The name has one place among the fields, and nothing is given there.
    have heq := List.inj_on_of_nodup_map hnodup (mem_spelled_iff.1 hmember) h rfl
    simp at heq

end Distinct

/-! ## Fields that read back -/

/-- What is given for a field, or that nothing is given, reads as some value. -/
def ReadsAs (decode : Json → Option α) (absent : α) (given : Option Json) (a : α) : Prop :=
  match given with
  | some j => decode j = some a
  | none => a = absent

/-- A decoder that takes `null` for the absence of a value. -/
def orNull (decode : Json → Option α) : Json → Option (Option α)
  | .null => some none
  | j => (decode j).map some

theorem orNull_eq {decode : Json → Option α} {j : Json} (h : j ≠ .null) :
    orNull decode j = (decode j).map some := by
  cases j with
  | null => exact absurd rfl h
  | bool b => rfl
  | num n => rfl
  | str s => rfl
  | arr items => rfl
  | obj members => rfl
  | unusable => rfl

/-- A field that may be absent or `null` is a field with no value for its absence. -/
theorem Fields.optional_eq_withDefault (fields : Fields) (name : String)
    (decode : Json → Option α) :
    fields.optional name decode = fields.withDefault name (orNull decode) none := by
  rw [optional, withDefault]
  cases fields.lookup name with
  | none => rfl
  | some j => cases j <;> rfl

theorem Fields.withDefault_of_readsAs {fields : Fields} {name : String}
    {decode : Json → Option α} {absent a : α} {given : Option Json}
    (hlookup : fields.lookup name = given) (h : ReadsAs decode absent given a) :
    fields.withDefault name decode absent = some a := by
  rw [withDefault, hlookup]
  cases given with
  | none => exact congrArg some (Eq.symm h)
  | some j => exact h

theorem Fields.optional_of_readsAs {fields : Fields} {name : String} {decode : Json → Option α}
    {a : Option α} {given : Option Json} (hlookup : fields.lookup name = given)
    (h : ReadsAs (orNull decode) none given a) : fields.optional name decode = some a := by
  rw [optional_eq_withDefault]
  exact withDefault_of_readsAs hlookup h

/-- A text that is always given. -/
theorem readsAs_text {absent : String} (s : String) : ReadsAs text? absent (some (.str s)) s :=
  rfl

/-- A text that is left out if it is empty. -/
theorem readsAs_textIf (s : String) : ReadsAs text? "" (textIf s) s := by
  rw [textIf]
  split
  case isTrue h => exact h
  case isFalse => rfl

theorem isSome_textIf (s : String) : (textIf s).isSome = decide (s ≠ "") := by
  rw [textIf]
  split
  case isTrue h => simp [h]
  case isFalse h => simp [h]

/-- A list reads back if its items do. -/
theorem list?_arr_map {decode : Json → Option α} {encode : α → Json} {xs : List α}
    (h : ∀ x ∈ xs, decode (encode x) = some x) :
    list? decode (.arr (xs.map encode)) = some xs := by
  rw [list?]
  induction xs with
  | nil => rfl
  | cons x xs ih =>
    have hrest := ih fun y hy => h y (List.mem_cons_of_mem x hy)
    rw [List.map_cons, List.mapM_cons, h x List.mem_cons_self, hrest]
    rfl

theorem arrayIf_of_mem {items : List Json} {j : Json} (h : j ∈ items) :
    arrayIf items = some (.arr items) := by
  cases items with
  | nil => cases h
  | cons item items => rfl

theorem eq_of_arrayIf {items : List Json} {j : Json} (h : arrayIf items = some j) :
    j = .arr items := by
  cases items with
  | nil => cases h
  | cons item items => exact (Option.some.inj h).symm

theorem isSome_arrayIf_map (encode : α → Json) (xs : List α) :
    (arrayIf (xs.map encode)).isSome = !xs.isEmpty := by
  cases xs with
  | nil => rfl
  | cons x xs => rfl

/-- A list that is left out if it is empty. -/
theorem readsAs_arrayIf {decode : Json → Option α} {encode : α → Json} {xs : List α}
    (h : ∀ x ∈ xs, decode (encode x) = some x) :
    ReadsAs (list? decode) [] (arrayIf (xs.map encode)) xs := by
  cases xs with
  | nil => rfl
  | cons x xs => exact list?_arr_map h

/-- A value that is left out if it is absent. -/
theorem readsAs_optional {decode : Json → Option α} {encode : α → Json} {a : Option α}
    (hnull : ∀ x ∈ a, encode x ≠ .null) (h : ∀ x ∈ a, decode (encode x) = some x) :
    ReadsAs (orNull decode) none (a.map encode) a := by
  cases a with
  | none => rfl
  | some x =>
    have hread : orNull decode (encode x) = some (some x) := by
      rw [orNull_eq (hnull x rfl), h x rfl]
      rfl
    exact hread

/-- A word reads back if it is the first choice with its label. -/
theorem choice?_label {label : α → String} {choices : List α} {a : α}
    (h : choices.find? (fun b => label b == label a) = some a) :
    choice? label choices (.str (label a)) = some a :=
  h

/-! ## Depth and usability -/

theorem depth_le_depthItems {items : List Json} {j : Json} (h : j ∈ items) :
    j.depth ≤ depthItems items := by
  induction items with
  | nil => cases h
  | cons item items ih =>
    rw [depthItems]
    rcases List.mem_cons.1 h with rfl | h
    · exact Nat.le_max_left _ _
    · exact Nat.le_trans (ih h) (Nat.le_max_right _ _)

theorem depth_le_depthMembers {members : List (String × Json)} {member : String × Json}
    (h : member ∈ members) : member.2.depth ≤ depthMembers members := by
  induction members with
  | nil => cases h
  | cons first members ih =>
    obtain ⟨key, value⟩ := first
    rw [depthMembers]
    rcases List.mem_cons.1 h with rfl | h
    · exact Nat.le_max_left _ _
    · exact Nat.le_trans (ih h) (Nat.le_max_right _ _)

/-- What is given for a field lies less deep than the record. -/
theorem depth_lt_of_mem_fields {fields : List (String × Option Json)} (name : String) {j : Json}
    (h : (name, some j) ∈ fields) : j.depth < (Json.obj (spelled fields)).depth := by
  have hmember : (name, j) ∈ spelled fields := mem_spelled_iff.2 h
  rw [depth]
  exact Nat.lt_succ_of_le (depth_le_depthMembers hmember)

/-- The items of a list that is given for a field lie less deep than the record. -/
theorem depth_lt_of_mem_arrayIf {fields : List (String × Option Json)} (name : String)
    {items : List Json} (h : (name, arrayIf items) ∈ fields) {item : Json} (hitem : item ∈ items) :
    item.depth < (Json.obj (spelled fields)).depth := by
  rw [arrayIf_of_mem hitem] at h
  have hlist := depth_lt_of_mem_fields name h
  have hitem := depth_le_depthItems hitem
  rw [depth] at hlist
  omega

theorem isUsable_arr {items : List Json} (h : ∀ item ∈ items, item.isUsable = true) :
    (Json.arr items).isUsable = true := by
  rw [isUsable]
  induction items with
  | nil => rfl
  | cons item items ih =>
    rw [usableItems, h item List.mem_cons_self, Bool.true_and]
    exact ih fun other hother => h other (List.mem_cons_of_mem item hother)

theorem isUsable_obj {members : List (String × Json)}
    (h : ∀ member ∈ members, member.2.isUsable = true) : (Json.obj members).isUsable = true := by
  rw [isUsable]
  induction members with
  | nil => rfl
  | cons member members ih =>
    rw [usableMembers, h member List.mem_cons_self, Bool.true_and]
    exact ih fun other hother => h other (List.mem_cons_of_mem member hother)

/-- A record is usable if everything that is given for its fields is. -/
theorem isUsable_spelled {fields : List (String × Option Json)}
    (h : ∀ field ∈ fields, ∀ j ∈ field.2, j.isUsable = true) :
    (Json.obj (spelled fields)).isUsable = true := by
  apply isUsable_obj
  intro member hmember
  exact h _ (mem_spelled_iff.1 hmember) member.2 rfl

theorem isUsable_of_mem_textIf (s : String) : ∀ j ∈ textIf s, j.isUsable = true := by
  intro j hj
  rw [textIf] at hj
  split at hj
  · cases hj
  · obtain rfl := Option.some.inj hj
    rfl

theorem isUsable_of_mem_map {encode : α → Json} {a : Option α}
    (h : ∀ x ∈ a, (encode x).isUsable = true) : ∀ j ∈ a.map encode, j.isUsable = true := by
  intro j hj
  obtain ⟨x, hx, rfl⟩ := Option.map_eq_some_iff.1 hj
  exact h x hx

theorem isUsable_arr_map {encode : α → Json} {xs : List α}
    (h : ∀ x ∈ xs, (encode x).isUsable = true) : (Json.arr (xs.map encode)).isUsable = true := by
  apply isUsable_arr
  intro item hitem
  obtain ⟨x, hx, rfl⟩ := List.mem_map.1 hitem
  exact h x hx

/-- The items of a list that is left out if it is empty. -/
theorem isUsable_of_mem_arrayIf {encode : α → Json} {xs : List α}
    (h : ∀ x ∈ xs, (encode x).isUsable = true) :
    ∀ j ∈ arrayIf (xs.map encode), j.isUsable = true := by
  intro j hj
  rw [eq_of_arrayIf hj]
  exact isUsable_arr_map h

/-! ## Records of one sort -/

/-- A list of values is written one by one. -/
theorem eq_map_of_cons {encode : α → Json} {encodeAll : List α → List Json}
    (hnil : encodeAll [] = []) (hcons : ∀ x xs, encodeAll (x :: xs) = encode x :: encodeAll xs)
    (xs : List α) : encodeAll xs = xs.map encode := by
  induction xs with
  | nil => exact hnil
  | cons x xs ih => rw [hcons, ih, List.map_cons]

/-- Values are written as records of a layout: for each of its fields something is given or left
out. -/
structure Spells (layout : Layout) (given : α → List (String × Option Json))
    (encode : α → Json) : Prop where
  nodup_names : layout.names.Nodup
  names_given : ∀ a, (given a).map Prod.fst = layout.names
  encode_eq : ∀ a, encode a = .obj (spelled (given a))

namespace Spells

variable {layout : Layout} {given : α → List (String × Option Json)} {encode : α → Json}

/-- The fields of a record are what was spelled. -/
theorem fields?_encode (h : Spells layout given encode) (a : α) :
    layout.fields? (encode a) = some (spelled (given a)) := by
  rw [h.encode_eq]
  exact known?_spelled h.nodup_names (h.names_given a)

/-- Each field is found as it was given. -/
theorem lookup_given (h : Spells layout given encode) (a : α) :
    ∀ field ∈ given a, (spelled (given a)).lookup field.1 = field.2 :=
  fun field => lookup_spelled h.nodup_names (h.names_given a) field.1

theorem encode_ne_null (h : Spells layout given encode) (a : α) : encode a ≠ .null := by
  rw [h.encode_eq]
  exact Json.noConfusion

/-- A record has some depth, so a bound for it leaves room for the parts. -/
theorem exists_bound_eq (h : Spells layout given encode) {a : α} {bound : Nat}
    (hbound : (encode a).depth ≤ bound) : ∃ rest, bound = rest + 1 := by
  rw [h.encode_eq, depth] at hbound
  exact ⟨bound - 1, by omega⟩

/-- A record that is given for a field lies less deep. -/
theorem depth_lt_of_mem_map (h : Spells layout given encode) {a part : α} {parts : Option α}
    (name : String) (hfield : (name, parts.map encode) ∈ given a) (hpart : part ∈ parts) :
    (encode part).depth < (encode a).depth := by
  rw [h.encode_eq a]
  apply depth_lt_of_mem_fields name
  rwa [Option.mem_def.1 hpart] at hfield

/-- The records of a list that is given for a field lie less deep. -/
theorem depth_lt_of_mem_arrayIf (h : Spells layout given encode) {a part : α} {parts : List α}
    (name : String) (hfield : (name, arrayIf (parts.map encode)) ∈ given a) (hpart : part ∈ parts) :
    (encode part).depth < (encode a).depth := by
  rw [h.encode_eq a]
  exact Json.depth_lt_of_mem_arrayIf name hfield (List.mem_map_of_mem hpart)

/-- A record is usable if everything that is given for its fields is. -/
theorem isUsable_encode (h : Spells layout given encode) {a : α}
    (hgiven : ∀ field ∈ given a, ∀ j ∈ field.2, j.isUsable = true) :
    (encode a).isUsable = true := by
  rw [h.encode_eq]
  exact isUsable_spelled hgiven

end Spells

end Recast.Json
