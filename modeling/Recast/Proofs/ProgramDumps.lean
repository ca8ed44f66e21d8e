import Recast.Program.Json
import Recast.Proofs.Reordering

/-!
# Programs read back

Every field of a program is written. So a record of a program is read field by field from what was
written, in whatever order the members of the objects come (`Json.Reads`), and no two programs are
written as the same value.

The members of a class share their object with an entity, whose flags stand in the same object again
(`Entity.exists_openFields`). A type is written with its tag among its fields; the reader takes the
tag out and leaves the rest to the class or the enumeration (`TypeDecl.ofJson?_of_tagged`).
-/

set_option autoImplicit false

namespace Recast

open Json (Reads)

/-! ## Flags and entities -/

/-- Flags are decoded from fields that give all of them, whatever else these give. -/
theorem Flags.ofFields?_of_gives {flags : Flags} {fields : Json.Fields}
    (h : ∀ member ∈ flags.toMembers, fields.Gives member) : ofFields? fields = some flags := by
  simp only [toMembers, List.forall_mem_cons] at h
  obtain ⟨atPublic, atPrivate, atInternal, atOverride, atStatic, -⟩ := h
  rw [ofFields?]
  simp only [Option.bind_eq_bind, Option.bind_some,
    Json.Fields.withDefault_of_reads atPublic (Json.reads_bool _),
    Json.Fields.withDefault_of_reads atPrivate (Json.reads_bool _),
    Json.Fields.withDefault_of_reads atInternal (Json.reads_bool _),
    Json.Fields.withDefault_of_reads atOverride (Json.reads_bool _),
    Json.Fields.withDefault_of_reads atStatic (Json.reads_bool _)]
  rfl

namespace Entity

theorem ofFields?_of_gives {entity : Entity} {fields : Json.Fields}
    (h : ∀ member ∈ entity.toMembers, fields.Gives member) : ofFields? fields = some entity := by
  simp only [toMembers, List.forall_mem_append, List.forall_mem_cons] at h
  obtain ⟨⟨⟨atName, atType, -⟩, atFlags⟩, atAttributes, -⟩ := h
  rw [ofFields?]
  simp only [Option.bind_eq_bind, Option.bind_some,
    Json.Fields.required_of_reads atName (Json.reads_text _),
    Json.Fields.required_of_reads atType (Json.reads_text _),
    Flags.ofFields?_of_gives atFlags,
    Json.Fields.required_of_reads atAttributes (Json.reads_text _)]
  rfl

/-- An entity holds texts and truth values only. -/
theorem isUsable_of_mem_toMembers (entity : Entity) :
    ∀ member ∈ entity.toMembers, member.2.isUsable = true := by
  simp only [toMembers, Flags.toMembers, List.forall_mem_append, List.forall_mem_cons,
    Json.isUsable, true_and]
  simp

/-- The attributes are written last and known before the flags. -/
theorem keys_toMembers (entity : Entity) : (entity.toMembers.map Prod.fst).Perm names := by
  show (["name", "type"] ++ Flags.layout.names ++ ["attributes"]).Perm
    (["name", "type"] ++ (["attributes"] ++ Flags.layout.names))
  rw [List.append_assoc]
  exact List.perm_append_comm.append_left _

section Shared

variable {entity : Entity} {members : List (String × Json)}

/-- The object of a member gives its entity and the fields of its own sort. -/
theorem exists_openFields {j : Json} (own : List String) (hkeys : members.map Prod.fst = own)
    (hnodup : (names ++ own).Nodup)
    (h : (Json.obj (entity.toMembers ++ members)).SameUpToOrder j) :
    ∃ fields, Json.openFields? own names j = some fields ∧ ofFields? fields = some entity ∧
      ∀ member ∈ members, fields.Gives member := by
  have hperm : ((entity.toMembers ++ members).map Prod.fst).Perm (names ++ own) := by
    rw [List.map_append, hkeys]
    exact entity.keys_toMembers.append_right own
  have hnames : ∀ name ∈ (entity.toMembers ++ members).map Prod.fst, name ∈ own ++ names := by
    intro name hname
    exact List.perm_append_comm.mem_iff.1 (hperm.mem_iff.1 hname)
  -- The entity is held back until the own fields are read, so it has to be usable.
  have husable : ∀ member ∈ entity.toMembers ++ members,
      member.1 ∈ own ∨ member.2.isUsable = true := by
    intro member hmember
    rcases List.mem_append.1 hmember with hmember | hmember
    · exact .inr (entity.isUsable_of_mem_toMembers member hmember)
    · rw [← hkeys]
      exact .inl (List.mem_map_of_mem hmember)
  obtain ⟨fields, hfields, hgives⟩ :=
    Json.exists_openFields (hperm.nodup_iff.2 hnodup) hnames husable h
  obtain ⟨hentity, hmembers⟩ := List.forall_mem_append.1 hgives
  exact ⟨fields, hfields, ofFields?_of_gives hentity, hmembers⟩

/-- A member is usable if the fields of its own sort are. -/
theorem isUsable_obj (h : ∀ member ∈ members, member.2.isUsable = true) :
    (Json.obj (entity.toMembers ++ members)).isUsable = true :=
  Json.isUsable_obj (List.forall_mem_append.2 ⟨entity.isUsable_of_mem_toMembers, h⟩)

end Shared

end Entity

/-! ## Members -/

namespace Parameter

/-- A default value that is absent is written as `null`. -/
theorem reads (parameter : Parameter) : Reads ofJson? parameter.toJson parameter := by
  intro j hj
  obtain ⟨fields, hfields, hgives⟩ := layout.exists_fields rfl (by decide) hj
  simp only [List.forall_mem_cons] at hgives
  obtain ⟨atName, atType, atDefault, -⟩ := hgives
  rw [ofJson?, hfields]
  simp only [Option.bind_eq_bind, Option.bind_some,
    Json.Fields.required_of_reads atName (Json.reads_text _),
    Json.Fields.required_of_reads atType (Json.reads_text _),
    Json.Fields.optional_of_reads atDefault (Json.reads_optional _)]
  rfl

theorem isUsable_toJson (parameter : Parameter) : parameter.toJson.isUsable = true := by
  apply Json.isUsable_obj
  simp only [List.forall_mem_cons]
  exact ⟨rfl, rfl, Json.isUsable_optional _, by simp⟩

end Parameter

namespace Invocation

theorem reads (invocation : Invocation) : Reads ofJson? invocation.toJson invocation := by
  intro j hj
  obtain ⟨fields, hfields, hgives⟩ := layout.exists_fields rfl (by decide) hj
  simp only [List.forall_mem_cons] at hgives
  obtain ⟨atTarget, atMember, atType, -⟩ := hgives
  rw [ofJson?, hfields]
  simp only [Option.bind_eq_bind, Option.bind_some,
    Json.Fields.required_of_reads atTarget (Json.reads_text _),
    Json.Fields.required_of_reads atMember (Json.reads_text _),
    Json.Fields.required_of_reads atType (Json.reads_text _)]
  rfl

theorem isUsable_toJson (invocation : Invocation) : invocation.toJson.isUsable = true :=
  rfl

end Invocation

namespace Body

/-- A body is read with its invocations. -/
theorem reads (body : Body) : Reads ofJson? body.toJson body := by
  intro j hj
  obtain ⟨fields, hfields, hgives⟩ := layout.exists_fields rfl (by decide) hj
  simp only [List.forall_mem_cons] at hgives
  obtain ⟨atText, atInvocations, -⟩ := hgives
  have hinvocations := Json.reads_list fun invocation (_ : invocation ∈ body.invocations) =>
    invocation.reads
  rw [ofJson?, hfields]
  simp only [Option.bind_eq_bind, Option.bind_some,
    Json.Fields.required_of_reads atText (Json.reads_text _),
    Json.Fields.required_of_reads atInvocations hinvocations]
  rfl

theorem isUsable_toJson (body : Body) : body.toJson.isUsable = true := by
  apply Json.isUsable_obj
  simp only [List.forall_mem_cons]
  exact ⟨rfl, Json.isUsable_arr_map fun one _ => one.isUsable_toJson, by simp⟩

end Body

namespace Accessor

/-- An accessor has a body beside its entity. -/
theorem reads (accessor : Accessor) : Reads ofJson? accessor.toJson accessor := by
  intro j hj
  obtain ⟨fields, hfields, hentity, hgives⟩ :=
    Entity.exists_openFields ["body"] rfl (by decide) hj
  simp only [List.forall_mem_cons] at hgives
  obtain ⟨atBody, -⟩ := hgives
  rw [ofJson?, hfields]
  simp only [Option.bind_eq_bind, Option.bind_some, hentity,
    Json.Fields.required_of_reads atBody accessor.body.reads]
  rfl

theorem isUsable_toJson (accessor : Accessor) : accessor.toJson.isUsable = true := by
  apply Entity.isUsable_obj
  simp only [List.forall_mem_cons]
  exact ⟨accessor.body.isUsable_toJson, by simp⟩

/-- An accessor that is absent is written as `null`, which no accessor is. -/
theorem reads_toJsonOptional (accessor : Option Accessor) :
    Reads (Json.orNull ofJson?) (toJsonOptional accessor) accessor := by
  cases accessor with
  | none => exact Json.reads_scalar rfl rfl
  | some accessor => exact Json.reads_orNull Json.noConfusion accessor.reads

theorem isUsable_toJsonOptional (accessor : Option Accessor) :
    (toJsonOptional accessor).isUsable = true := by
  cases accessor with
  | none => rfl
  | some accessor => exact accessor.isUsable_toJson

end Accessor

namespace FieldDecl

/-- A field has its initial value beside its entity. -/
theorem reads (field : FieldDecl) : Reads ofJson? field.toJson field := by
  intro j hj
  obtain ⟨fields, hfields, hentity, hgives⟩ :=
    Entity.exists_openFields ["init"] rfl (by decide) hj
  simp only [List.forall_mem_cons] at hgives
  obtain ⟨atInit, -⟩ := hgives
  rw [ofJson?, hfields]
  simp only [Option.bind_eq_bind, Option.bind_some, hentity,
    Json.Fields.optional_of_reads atInit (Json.reads_optional _)]
  rfl

theorem isUsable_toJson (field : FieldDecl) : field.toJson.isUsable = true := by
  apply Entity.isUsable_obj
  simp only [List.forall_mem_cons]
  exact ⟨Json.isUsable_optional _, by simp⟩

end FieldDecl

namespace Property

/-- Properties and indexers are read alike, with their accessors. -/
theorem reads (property : Property) : Reads ofJson? property.toJson property := by
  intro j hj
  obtain ⟨fields, hfields, hentity, hgives⟩ :=
    Entity.exists_openFields ["parameters", "getter", "setter"] rfl (by decide) hj
  simp only [List.forall_mem_cons] at hgives
  obtain ⟨atParameters, atGetter, atSetter, -⟩ := hgives
  have hparameters := Json.reads_list fun one (_ : one ∈ property.parameters) => one.reads
  rw [ofJson?, hfields]
  simp only [Option.bind_eq_bind, Option.bind_some, hentity,
    Json.Fields.required_of_reads atParameters hparameters,
    Json.Fields.optional_of_reads atGetter (Accessor.reads_toJsonOptional _),
    Json.Fields.optional_of_reads atSetter (Accessor.reads_toJsonOptional _)]
  rfl

theorem isUsable_toJson (property : Property) : property.toJson.isUsable = true := by
  apply Entity.isUsable_obj
  simp only [List.forall_mem_cons]
  exact ⟨Json.isUsable_arr_map fun one _ => one.isUsable_toJson,
    Accessor.isUsable_toJsonOptional _, Accessor.isUsable_toJsonOptional _, by simp⟩

end Property

namespace Routine

/-- Methods and constructors are read alike, with their bodies. -/
theorem reads (routine : Routine) : Reads ofJson? routine.toJson routine := by
  intro j hj
  obtain ⟨fields, hfields, hentity, hgives⟩ :=
    Entity.exists_openFields ["parameters", "body"] rfl (by decide) hj
  simp only [List.forall_mem_cons] at hgives
  obtain ⟨atParameters, atBody, -⟩ := hgives
  have hparameters := Json.reads_list fun one (_ : one ∈ routine.parameters) => one.reads
  rw [ofJson?, hfields]
  simp only [Option.bind_eq_bind, Option.bind_some, hentity,
    Json.Fields.required_of_reads atParameters hparameters,
    Json.Fields.required_of_reads atBody routine.body.reads]
  rfl

theorem isUsable_toJson (routine : Routine) : routine.toJson.isUsable = true := by
  apply Entity.isUsable_obj
  simp only [List.forall_mem_cons]
  exact ⟨Json.isUsable_arr_map fun one _ => one.isUsable_toJson,
    routine.body.isUsable_toJson, by simp⟩

end Routine

/-! ## Types -/

namespace ClassDecl

/-- A class is read if its members are, sort by sort. -/
theorem reads (decl : ClassDecl) : Reads ofJson? decl.toJson decl := by
  intro j hj
  obtain ⟨fields, hfields, hgives⟩ := layout.exists_fields rfl (by decide) hj
  simp only [toMembers, List.forall_mem_cons] at hgives
  obtain ⟨atName, atBases, atFields, atProperties, atConstructors, atMethods, atIndexers, -⟩ :=
    hgives
  have hfieldDecls := Json.reads_list fun one (_ : one ∈ decl.fields) => one.reads
  have hproperties := Json.reads_list fun one (_ : one ∈ decl.properties) => one.reads
  have hconstructors := Json.reads_list fun one (_ : one ∈ decl.constructors) => one.reads
  have hmethods := Json.reads_list fun one (_ : one ∈ decl.methods) => one.reads
  have hindexers := Json.reads_list fun one (_ : one ∈ decl.indexers) => one.reads
  rw [ofJson?, hfields]
  simp only [Option.bind_eq_bind, Option.bind_some,
    Json.Fields.required_of_reads atName (Json.reads_text _),
    Json.Fields.required_of_reads atBases (Json.reads_strings _),
    Json.Fields.required_of_reads atFields hfieldDecls,
    Json.Fields.required_of_reads atProperties hproperties,
    Json.Fields.required_of_reads atConstructors hconstructors,
    Json.Fields.required_of_reads atMethods hmethods,
    Json.Fields.required_of_reads atIndexers hindexers]
  rfl

/-- All of a class is usable, so it can be held back until its tag is found. -/
theorem isUsable_of_mem_toMembers (decl : ClassDecl) :
    ∀ member ∈ decl.toMembers, member.2.isUsable = true := by
  simp only [toMembers, List.forall_mem_cons]
  exact ⟨rfl, Json.isUsable_strings _,
    Json.isUsable_arr_map fun one _ => one.isUsable_toJson,
    Json.isUsable_arr_map fun one _ => one.isUsable_toJson,
    Json.isUsable_arr_map fun one _ => one.isUsable_toJson,
    Json.isUsable_arr_map fun one _ => one.isUsable_toJson,
    Json.isUsable_arr_map fun one _ => one.isUsable_toJson, by simp⟩

end ClassDecl

namespace EnumMember

theorem reads (member : EnumMember) : Reads ofJson? member.toJson member := by
  intro j hj
  obtain ⟨fields, hfields, hgives⟩ := layout.exists_fields rfl (by decide) hj
  simp only [List.forall_mem_cons] at hgives
  obtain ⟨atName, atInit, -⟩ := hgives
  rw [ofJson?, hfields]
  simp only [Option.bind_eq_bind, Option.bind_some,
    Json.Fields.required_of_reads atName (Json.reads_text _),
    Json.Fields.optional_of_reads atInit (Json.reads_optional _)]
  rfl

theorem isUsable_toJson (member : EnumMember) : member.toJson.isUsable = true := by
  apply Json.isUsable_obj
  simp only [List.forall_mem_cons]
  exact ⟨rfl, Json.isUsable_optional _, by simp⟩

end EnumMember

namespace EnumDecl

theorem reads (decl : EnumDecl) : Reads ofJson? decl.toJson decl := by
  intro j hj
  obtain ⟨fields, hfields, hgives⟩ := layout.exists_fields rfl (by decide) hj
  simp only [toMembers, List.forall_mem_cons] at hgives
  obtain ⟨atName, atBases, atMembers, -⟩ := hgives
  have hmembers := Json.reads_list fun one (_ : one ∈ decl.members) => one.reads
  rw [ofJson?, hfields]
  simp only [Option.bind_eq_bind, Option.bind_some,
    Json.Fields.required_of_reads atName (Json.reads_text _),
    Json.Fields.required_of_reads atBases (Json.reads_strings _),
    Json.Fields.required_of_reads atMembers hmembers]
  rfl

theorem isUsable_of_mem_toMembers (decl : EnumDecl) :
    ∀ member ∈ decl.toMembers, member.2.isUsable = true := by
  simp only [toMembers, List.forall_mem_cons]
  exact ⟨rfl, Json.isUsable_strings _, Json.isUsable_arr_map fun one _ => one.isUsable_toJson,
    by simp⟩

end EnumDecl

namespace TypeDecl

/-- The tag is found in whatever place it stands, and what is left is the content in some order. -/
theorem ofJson?_of_tagged {tag : String} {members : List (String × Json)} {j : Json}
    (husable : ∀ member ∈ members, member.2.isUsable = true)
    (hkeys : tagKey ∉ members.map Prod.fst)
    (h : (Json.obj ((tagKey, .str tag) :: members)).SameUpToOrder j) :
    ∃ content, ofJson? j = ofTagged? tag content ∧ (Json.obj members).SameUpToOrder content := by
  have hj := h.isUsable (Json.isUsable_obj (List.forall_mem_cons.2 ⟨rfl, husable⟩))
  cases h with
  | scalar hscalar => simp [Json.depth] at hscalar
  | @obj _ order others hsame hvalues hperm =>
    cases order with
    | nil => simp at hsame
    | cons first order =>
      obtain ⟨hkey, horder⟩ := List.cons.inj hsame
      obtain ⟨hvalue, hcontents⟩ := List.forall₂_cons.1 hvalues
      obtain rfl : first = (tagKey, .str tag) := Prod.ext hkey (hvalue.eq_of_scalar rfl)
      have habsent : ∀ member ∈ order, member.1 ≠ tagKey := by
        intro member hmember heq
        apply hkeys
        rw [← horder, ← heq]
        exact List.mem_map_of_mem hmember
      -- Wherever the tag stands, it is the only member with its key, and the others keep theirs.
      have htag : (others.filter fun member => member.1 = tagKey) = [(tagKey, .str tag)] := by
        have hfilter := hperm.filter fun member => member.1 = tagKey
        rw [List.filter_cons_of_pos (by simp), List.filter_eq_nil_iff.2 (by simpa using habsent)]
          at hfilter
        exact (List.singleton_perm.1 hfilter).symm
      have hcontent : order.Perm (others.filter fun member => member.1 ≠ tagKey) := by
        have hfilter := hperm.filter fun member => member.1 ≠ tagKey
        rwa [List.filter_cons_of_neg (by simp), List.filter_eq_self.2 (by simpa using habsent)]
          at hfilter
      refine ⟨.obj (others.filter fun member => member.1 ≠ tagKey), ?_,
        .obj horder hcontents hcontent⟩
      rw [ofJson?, if_pos hj]
      simp only [htag]

/-- A type is read by its tag, as a class or as an enumeration. -/
theorem reads (decl : TypeDecl) : Reads ofJson? decl.toJson decl := by
  intro j hj
  cases decl with
  | ofClass decl =>
    have htag : tagKey ∉ ClassDecl.layout.names := by decide
    obtain ⟨content, hcontent, hsame⟩ := ofJson?_of_tagged decl.isUsable_of_mem_toMembers htag hj
    rw [hcontent, ofTagged?, if_pos rfl, decl.reads content hsame, Option.map_some]
  | ofEnum decl =>
    have htag : tagKey ∉ EnumDecl.layout.names := by decide
    obtain ⟨content, hcontent, hsame⟩ := ofJson?_of_tagged decl.isUsable_of_mem_toMembers htag hj
    rw [hcontent, ofTagged?, if_neg (by decide), if_pos rfl, decl.reads content hsame,
      Option.map_some]

end TypeDecl

/-! ## Namespaces -/

/-- A namespace is read if its types are. -/
theorem Namespace.reads (space : Namespace) : Reads ofJson? space.toJson space := by
  intro j hj
  obtain ⟨fields, hfields, hgives⟩ := layout.exists_fields rfl (by decide) hj
  simp only [List.forall_mem_cons] at hgives
  obtain ⟨atName, atTypes, -⟩ := hgives
  have htypes := Json.reads_list fun one (_ : one ∈ space.types) => one.reads
  rw [ofJson?, hfields]
  simp only [Option.bind_eq_bind, Option.bind_some,
    Json.Fields.optional_of_reads atName (Json.reads_optional _),
    Json.Fields.required_of_reads atTypes htypes]
  rfl

/-- Programs read back. A namespace is decoded from what is written for it, in whatever order the
members of the objects come, and what is written for another namespace is another value. -/
theorem namespaces_read_back (space : Namespace) :
    Namespace.ofJson? space.toJson = some space ∧
      (∀ j, space.toJson.SameUpToOrder j → Namespace.ofJson? j = some space) ∧
      ∀ other : Namespace, other ≠ space → ¬ space.toJson.SameUpToOrder other.toJson := by
  refine ⟨space.reads _ (.refl _), space.reads, ?_⟩
  -- What is written for the other one decodes to both.
  intro other hne hsame
  have hspace := space.reads _ hsame
  have hother := other.reads _ (.refl _)
  exact hne (Option.some.inj (hother.symm.trans hspace))

/-- A class with members of every sort; of its accessors some are there and some are not. -/
def shelf : ClassDecl where
  name := "Shelf"
  bases := ["Thing"]
  fields := [{ entity := { name := "items", type := "Item[]", flags := { isPrivate := true } } }]
  properties := [
    { entity := { name := "Count", type := "int", flags := { isPublic := true, isStatic := true } }
      getter := some
        { body :=
            { text := "return items.Length;"
              invocations := [{ target := "items", member := "Length", type := "Array" }] } } }]
  constructors := [{ entity := { name := "Shelf", attributes := "[Obsolete]" } }]
  methods := [
    { entity := { name := "Fill", flags := { isInternal := true, isOverride := true } }
      parameters := [{ name := "upTo", type := "int", defaultValue := some "8" }] }]
  indexers := [{ parameters := [{ name := "i", type := "int" }], setter := some {} }]

/-- An enumeration with a value that is given and one that is not. -/
def shelfSize : EnumDecl where
  name := "Size"
  members := [{ name := "S", init := some "1" }, { name := "M" }]

/-- A namespace with both sorts of types. -/
def shelfSpace : Namespace where
  name := some "Shop"
  types := [.ofClass shelf, .ofEnum shelfSize]

/-- The types stand in front of the name, and the tag of the class behind its fields. -/
def shelfSpaceReordered : Json :=
  .obj [
    ("types", .arr [
      .obj (shelf.toMembers ++ [(TypeDecl.tagKey, .str "class")]),
      (TypeDecl.ofEnum shelfSize).toJson]),
    ("name", .str "Shop")]

theorem namespaces_read_back_shelfSpace :
    shelfSpace.toJson.SameUpToOrder shelfSpaceReordered ∧
      Namespace.ofJson? shelfSpaceReordered = some shelfSpace ∧
      { shelfSpace with name := none } ≠ shelfSpace ∧
      ¬ shelfSpace.toJson.SameUpToOrder { shelfSpace with name := none }.toJson := by
  have hclass : (TypeDecl.ofClass shelf).toJson.SameUpToOrder
      (.obj (shelf.toMembers ++ [(TypeDecl.tagKey, .str "class")])) :=
    .obj rfl (List.forall₂_same.2 fun value _ => .refl value) (List.perm_append_singleton _ _).symm
  have htypes : (Json.arr (shelfSpace.types.map TypeDecl.toJson)).SameUpToOrder (.arr [
      .obj (shelf.toMembers ++ [(TypeDecl.tagKey, .str "class")]),
      (TypeDecl.ofEnum shelfSize).toJson]) :=
    .arr (.cons hclass (.cons (.refl _) .nil))
  have hsame : shelfSpace.toJson.SameUpToOrder shelfSpaceReordered := by
    refine .obj ?_ ?_ (List.Perm.swap _ _ _)
    · rfl
    · exact .cons (.refl _) (.cons htypes .nil)
  have hne : { shelfSpace with name := none } ≠ shelfSpace := by decide
  obtain ⟨-, hreads, hother⟩ := namespaces_read_back shelfSpace
  exact ⟨hsame, hreads _ hsame, hne, hother _ hne⟩

end Recast
