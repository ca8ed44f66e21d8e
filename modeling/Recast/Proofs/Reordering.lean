import Mathlib.Data.List.Forall2
import Mathlib.Data.List.Perm.Basic
import Recast.Proofs.Spelling

/-!
# Values up to the order of members

The members of an object have no order of their own, so two values are the same JSON value if one
becomes the other by reordering the members of the objects in it (`Json.SameUpToOrder`). A decoder
reads a value (`Json.Reads`) if it takes all its reorderings to one result. There is a lemma for
each way to decode: scalars, lists, fields that may be `null`, and records, whose fields are found
under their names in whatever order they come (`Json.Layout.exists_fields`).

Whether a value is usable does not depend on the order either (`Json.SameUpToOrder.isUsable`).
-/

set_option autoImplicit false

namespace Recast.Json

variable {α : Type}

/-! ## Reordering -/

/-- Whether two values are the same up to the order of the members of objects. -/
inductive SameUpToOrder : Json → Json → Prop
  | scalar {j : Json} : j.depth = 0 → SameUpToOrder j j
  | arr {items others : List Json} : List.Forall₂ SameUpToOrder items others →
      SameUpToOrder (.arr items) (.arr others)
  | obj {members order others : List (String × Json)} :
      order.map Prod.fst = members.map Prod.fst →
      List.Forall₂ SameUpToOrder (members.map Prod.snd) (order.map Prod.snd) →
      order.Perm others → SameUpToOrder (.obj members) (.obj others)

/-- What holds of scalars, and passes from the parts of a container to the container, holds of all
values. -/
@[elab_as_elim]
theorem induction {motive : Json → Prop}
    (arr : ∀ items, (∀ item ∈ items, motive item) → motive (.arr items))
    (obj : ∀ members, (∀ member ∈ members, motive member.2) → motive (.obj members))
    (scalar : ∀ j, j.depth = 0 → motive j) (j : Json) : motive j :=
  match j with
  | .arr items => arr items fun item _hitem => induction arr obj scalar item
  | .obj members => obj members fun member _hmember => induction arr obj scalar member.2
  | .null => scalar _ rfl
  | .bool _ => scalar _ rfl
  | .num _ => scalar _ rfl
  | .str _ => scalar _ rfl
  | .unusable => scalar _ rfl
termination_by sizeOf j
decreasing_by
  · have hlt := List.sizeOf_lt_of_mem _hitem
    simp only [Json.arr.sizeOf_spec]
    omega
  · have hlt := List.sizeOf_lt_of_mem _hmember
    obtain ⟨key, value⟩ := member
    simp only [Json.obj.sizeOf_spec, Prod.mk.sizeOf_spec] at hlt ⊢
    omega

theorem SameUpToOrder.refl (j : Json) : j.SameUpToOrder j := by
  induction j using Json.induction with
  | arr items ih => exact .arr (List.forall₂_same.2 ih)
  | obj members ih =>
    refine .obj rfl (List.forall₂_same.2 ?_) (.refl members)
    intro value hvalue
    obtain ⟨member, hmember, rfl⟩ := List.mem_map.1 hvalue
    exact ih member hmember
  | scalar j h => exact .scalar h

/-- Scalars have no members to reorder. -/
theorem SameUpToOrder.eq_of_scalar {j k : Json} (h : j.SameUpToOrder k) (hscalar : j.depth = 0) :
    k = j := by
  cases h with
  | scalar => rfl
  | arr _ => simp [depth] at hscalar
  | obj _ _ _ => simp [depth] at hscalar

theorem SameUpToOrder.eq_null {j : Json} (h : j.SameUpToOrder .null) : j = .null := by
  cases h
  rfl

/-- What an object with certain members looks like in another order. -/
structure Rearranged (members others : List (String × Json)) : Prop where
  keys : (others.map Prod.fst).Perm (members.map Prod.fst)
  given : ∀ member ∈ members, ∃ other, (member.1, other) ∈ others ∧ member.2.SameUpToOrder other
  taken : ∀ other ∈ others, ∃ value, (other.1, value) ∈ members ∧ value.SameUpToOrder other.2

/-- Members that stand in the same order are rearranged in the parts only. -/
theorem rearranged_of_forall₂ {members order : List (String × Json)}
    (hkeys : order.map Prod.fst = members.map Prod.fst)
    (hvalues : List.Forall₂ SameUpToOrder (members.map Prod.snd) (order.map Prod.snd)) :
    Rearranged members order := by
  induction members generalizing order with
  | nil =>
    obtain rfl := List.map_eq_nil_iff.1 hkeys
    exact ⟨.refl _, by simp, by simp⟩
  | cons member members ih =>
    cases order with
    | nil => simp at hkeys
    | cons first order =>
      obtain ⟨hkey, hkeys⟩ := List.cons.inj hkeys
      obtain ⟨hvalue, hvalues⟩ := List.forall₂_cons.1 hvalues
      obtain ⟨hperm, hgiven, htaken⟩ := ih hkeys hvalues
      refine ⟨?_, ?_, ?_⟩
      · rw [List.map_cons, List.map_cons, hkey]
        exact hperm.cons _
      · refine List.forall_mem_cons.2 ⟨⟨first.2, ?_, hvalue⟩, ?_⟩
        · rw [← hkey]
          exact List.mem_cons_self
        · intro other hother
          obtain ⟨value, hmem, hsame⟩ := hgiven other hother
          exact ⟨value, List.mem_cons_of_mem _ hmem, hsame⟩
      · refine List.forall_mem_cons.2 ⟨⟨member.2, ?_, hvalue⟩, ?_⟩
        · rw [hkey]
          exact List.mem_cons_self
        · intro other hother
          obtain ⟨value, hmem, hsame⟩ := htaken other hother
          exact ⟨value, List.mem_cons_of_mem _ hmem, hsame⟩

/-- In another order an object is still an object, with the same keys. -/
theorem SameUpToOrder.exists_rearranged {members : List (String × Json)} {j : Json}
    (h : (Json.obj members).SameUpToOrder j) :
    ∃ others, j = .obj others ∧ Rearranged members others := by
  cases h with
  | scalar hscalar => simp [depth] at hscalar
  | @obj _ order others hkeys hvalues hperm =>
    obtain ⟨horder, hgiven, htaken⟩ := rearranged_of_forall₂ hkeys hvalues
    refine ⟨others, rfl, (hperm.symm.map Prod.fst).trans horder, ?_, ?_⟩
    · intro member hmember
      obtain ⟨other, hmem, hsame⟩ := hgiven member hmember
      exact ⟨other, hperm.subset hmem, hsame⟩
    · intro other hother
      exact htaken other (hperm.symm.subset hother)

/-! ## Usability -/

theorem isUsable_of_mem_arr {items : List Json} (h : (Json.arr items).isUsable = true) :
    ∀ item ∈ items, item.isUsable = true := by
  rw [isUsable] at h
  induction items with
  | nil => simp
  | cons item items ih =>
    rw [usableItems, Bool.and_eq_true] at h
    exact List.forall_mem_cons.2 ⟨h.1, ih h.2⟩

theorem isUsable_of_mem_obj {members : List (String × Json)}
    (h : (Json.obj members).isUsable = true) : ∀ member ∈ members, member.2.isUsable = true := by
  rw [isUsable] at h
  induction members with
  | nil => simp
  | cons member members ih =>
    rw [usableMembers, Bool.and_eq_true] at h
    exact List.forall_mem_cons.2 ⟨h.1, ih h.2⟩

theorem exists_mem_of_forall₂ {items others : List Json}
    (h : List.Forall₂ SameUpToOrder items others) :
    ∀ other ∈ others, ∃ item ∈ items, item.SameUpToOrder other := by
  induction h with
  | nil => simp
  | cons hsame _ ih =>
    refine List.forall_mem_cons.2 ⟨⟨_, List.mem_cons_self, hsame⟩, ?_⟩
    intro other hother
    obtain ⟨item, hitem, hsame⟩ := ih other hother
    exact ⟨item, List.mem_cons_of_mem _ hitem, hsame⟩

/-- The order does not matter for usability. -/
theorem SameUpToOrder.isUsable {j k : Json} (h : j.SameUpToOrder k) (hj : j.isUsable = true) :
    k.isUsable = true := by
  induction j using Json.induction generalizing k with
  | arr items ih =>
    cases h with
    | scalar => exact hj
    | @arr _ others hitems =>
      have hparts := isUsable_of_mem_arr hj
      apply isUsable_arr
      intro other hother
      obtain ⟨item, hitem, hsame⟩ := exists_mem_of_forall₂ hitems other hother
      exact ih item hitem hsame (hparts item hitem)
  | obj members ih =>
    -- Every member of the other object is a member of this one in another order.
    obtain ⟨others, rfl, hothers⟩ := h.exists_rearranged
    have hparts := isUsable_of_mem_obj hj
    apply isUsable_obj
    intro other hother
    obtain ⟨value, hmem, hsame⟩ := hothers.taken other hother
    exact ih _ hmem hsame (hparts _ hmem)
  | scalar j hscalar =>
    rw [h.eq_of_scalar hscalar]
    exact hj

theorem isUsable_optional (s : Option String) : (Json.optional s).isUsable = true := by
  cases s with
  | none => rfl
  | some s => rfl

theorem isUsable_strings (values : List String) : (strings values).isUsable = true :=
  isUsable_arr_map fun _ _ => rfl

/-! ## Decoders that do not see the order -/

/-- A decoder takes a value, in whatever order its members come, to some result. -/
def Reads (decode : Json → Option α) (j : Json) (a : α) : Prop :=
  ∀ k, j.SameUpToOrder k → decode k = some a

/-- A scalar is read if it is decoded as it stands. -/
theorem reads_scalar {decode : Json → Option α} {j : Json} {a : α} (hscalar : j.depth = 0)
    (h : decode j = some a) : Reads decode j a := by
  intro k hk
  rw [hk.eq_of_scalar hscalar]
  exact h

theorem reads_text (s : String) : Reads text? (.str s) s :=
  reads_scalar rfl rfl

theorem reads_bool (b : Bool) : Reads bool? (.bool b) b :=
  reads_scalar rfl rfl

/-- A list is read if its items are. -/
theorem reads_list {decode : Json → Option α} {encode : α → Json} {xs : List α}
    (h : ∀ x ∈ xs, Reads decode (encode x) x) : Reads (list? decode) (.arr (xs.map encode)) xs := by
  intro k hk
  cases hk with
  | scalar hscalar => simp [depth] at hscalar
  | @arr _ others hitems =>
    rw [list?]
    induction xs generalizing others with
    | nil =>
      obtain rfl := List.forall₂_nil_left_iff.1 hitems
      rfl
    | cons x xs ih =>
      obtain ⟨other, others, hx, hxs, rfl⟩ := List.forall₂_cons_left_iff.1 hitems
      obtain ⟨hreads, hrest⟩ := List.forall_mem_cons.1 h
      rw [List.mapM_cons, hreads other hx, ih hrest hxs]
      rfl

theorem reads_strings (values : List String) : Reads (list? text?) (strings values) values :=
  reads_list fun s _ => reads_text s

/-- A value that is present. -/
theorem reads_orNull {decode : Json → Option α} {j : Json} {a : α} (hnull : j ≠ .null)
    (h : Reads decode j a) : Reads (orNull decode) j (some a) := by
  intro k hk
  have hne : k ≠ .null := by
    rintro rfl
    exact hnull hk.eq_null
  rw [orNull_eq hne, h k hk]
  rfl

/-- A text that may be absent. -/
theorem reads_optional (s : Option String) : Reads (orNull text?) (Json.optional s) s := by
  cases s with
  | none => exact reads_scalar rfl rfl
  | some s => exact reads_orNull Json.noConfusion (reads_text s)

/-! ## Records in any order -/

namespace Fields

/-- The fields of a record give a value, up to the order inside of it, under a name. -/
def Gives (fields : Fields) (member : String × Json) : Prop :=
  ∃ other, fields.lookup member.1 = some other ∧ member.2.SameUpToOrder other

section Given

variable {fields : Fields} {name : String} {j : Json} (hgives : fields.Gives (name, j))

include hgives

/-- A field that is given is read, also if it may be absent. -/
theorem required_of_reads {decode : Json → Option α} {a : α} (h : Reads decode j a) :
    fields.required name decode = some a := by
  obtain ⟨k, hlookup, hsame⟩ := hgives
  rw [required, hlookup]
  exact h k hsame

theorem withDefault_of_reads {decode : Json → Option α} {absent a : α} (h : Reads decode j a) :
    fields.withDefault name decode absent = some a := by
  obtain ⟨k, hlookup, hsame⟩ := hgives
  rw [withDefault, hlookup]
  exact h k hsame

theorem optional_of_reads {decode : Json → Option α} {a : Option α}
    (h : Reads (orNull decode) j a) : fields.optional name decode = some a := by
  rw [optional_eq_withDefault]
  exact withDefault_of_reads hgives h

end Given

end Fields

section Rearranged

variable {members others : List (String × Json)} {j : Json}

theorem Rearranged.nodup (h : Rearranged members others) (hnodup : (members.map Prod.fst).Nodup) :
    (others.map Prod.fst).Nodup :=
  h.keys.nodup_iff.2 hnodup

/-- Each member is found under its key. -/
theorem Rearranged.gives (h : Rearranged members others)
    (hnodup : (members.map Prod.fst).Nodup) : ∀ member ∈ members, Fields.Gives others member := by
  intro member hmember
  obtain ⟨other, hmem, hsame⟩ := h.given member hmember
  exact ⟨other, lookup_of_mem (h.nodup hnodup) hmem, hsame⟩

/-- A record knows all members in any order. -/
theorem Rearranged.known?_eq {names : List String} (h : Rearranged members others)
    (hnodup : (members.map Prod.fst).Nodup) (hnames : ∀ name ∈ members.map Prod.fst, name ∈ names) :
    known? names others = some others := by
  apply known?_eq_some _ (h.nodup hnodup)
  intro name hname
  exact hnames name (h.keys.mem_iff.1 hname)

/-- A record whose fields are all written has them in any order. -/
theorem Layout.exists_fields (layout : Layout) (hkeys : members.map Prod.fst = layout.names)
    (hnodup : layout.names.Nodup) (h : (Json.obj members).SameUpToOrder j) :
    ∃ fields, layout.fields? j = some fields ∧ ∀ member ∈ members, fields.Gives member := by
  obtain ⟨others, rfl, hothers⟩ := h.exists_rearranged
  rw [← hkeys] at hnodup
  refine ⟨others, hothers.known?_eq hnodup ?_, hothers.gives hnodup⟩
  intro name hname
  rw [← hkeys]
  exact hname

/-- So has a record that shares its object, if all that is held back is usable. -/
theorem exists_openFields {own shared : List String} (hnodup : (members.map Prod.fst).Nodup)
    (hnames : ∀ name ∈ members.map Prod.fst, name ∈ own ++ shared)
    (husable : ∀ member ∈ members, member.1 ∈ own ∨ member.2.isUsable = true)
    (h : (Json.obj members).SameUpToOrder j) :
    ∃ fields, openFields? own shared j = some fields ∧ ∀ member ∈ members, fields.Gives member := by
  obtain ⟨others, rfl, hothers⟩ := h.exists_rearranged
  have hall : (others.all fun other => own.contains other.1 || other.2.isUsable) = true := by
    apply List.all_eq_true.2
    intro other hother
    obtain ⟨value, hmem, hsame⟩ := hothers.taken other hother
    rw [Bool.or_eq_true, List.contains_iff_mem]
    rcases husable _ hmem with hown | hvalue
    · exact .inl hown
    · exact .inr (hsame.isUsable hvalue)
  refine ⟨others, ?_, hothers.gives hnodup⟩
  rw [openFields?, if_pos hall]
  exact hothers.known?_eq hnodup hnames

end Rearranged

end Recast.Json
