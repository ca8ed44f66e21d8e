import Recast.Program.Merge
import Recast.Proofs.Keyed

/-!
# What merging yields

Fragments are merged into one namespace for each name. `get?_merge` says which: the namespace of a
name holds the types of all fragments of that name, put one after the other. So the namespaces stand
in the order in which their names first occur, the types of each in the order in which their names
first occur in it, and each type is the last one of its name (`merge_isUnion`). The conflicts are
the declarations that came under a name already taken, in the order of the input.
-/

set_option autoImplicit false

namespace Recast

/-- The types of all fragments of some name, in order. -/
def typesNamed (fragments : List Namespace) (name : Option String) : List TypeDecl :=
  (fragments.filter fun fragment => fragment.name = name).flatMap Namespace.types

/-- The name of a type with the name of its namespace, for every type of a fragment. -/
def Namespace.declared (fragment : Namespace) : List Conflict :=
  fragment.types.map fun type => { space := fragment.name, type := type.name }

/-! ## Putting types into a namespace -/

namespace Namespace

theorem putType_eq (space : Namespace) (type : TypeDecl) :
    space.putType type = { space with types := Keyed.put TypeDecl.name space.types type } := by
  rw [putType, Keyed.put, declares]
  split <;> rfl

theorem putTypes_eq (space : Namespace) (types : List TypeDecl) :
    space.putTypes types
      = { space with types := types.foldl (Keyed.put TypeDecl.name) space.types } := by
  induction types generalizing space with
  | nil => rfl
  | cons type types ih =>
    rw [putTypes, List.foldl_cons, ← putTypes, ih, putType_eq, List.foldl_cons]

/-- The namespace of some name with the types of a list. -/
theorem putTypes_nil_eq (name : Option String) (types : List TypeDecl) :
    ({ name } : Namespace).putTypes types = { name, types := Keyed.putAll TypeDecl.name types } :=
  putTypes_eq { name } types

theorem putTypes_append (space : Namespace) (first next : List TypeDecl) :
    space.putTypes (first ++ next) = (space.putTypes first).putTypes next :=
  List.foldl_append

@[simp] theorem name_putTypes (space : Namespace) (types : List TypeDecl) :
    (space.putTypes types).name = space.name := by
  rw [putTypes_eq]

theorem declares_eq_true_iff {space : Namespace} {name : String} :
    space.declares name = true ↔ name ∈ space.types.map TypeDecl.name := by
  rw [declares, List.any_eq_true, List.mem_map]
  simp only [decide_eq_true_iff]

theorem declares_putType_iff {space : Namespace} {type : TypeDecl} {name : String} :
    (space.putType type).declares name = true ↔
      name = type.name ∨ space.declares name = true := by
  rw [declares_eq_true_iff, declares_eq_true_iff, putType_eq, Keyed.map_key_put]
  split
  case isTrue h =>
    constructor
    · exact Or.inr
    · rintro (rfl | hname)
      · exact h
      · exact hname
  case isFalse => rw [List.mem_append, List.mem_singleton, or_comm]

/-- Each type that is put either adds to the types or is a conflict. -/
theorem length_putTypes (space : Namespace) (types : List TypeDecl) :
    (space.putTypes types).types.length + (space.conflictsOf types).length
      = space.types.length + types.length := by
  induction types generalizing space with
  | nil => rfl
  | cons type types ih =>
    have hrest := ih (space.putType type)
    rw [putTypes, List.foldl_cons, ← putTypes, conflictsOf, List.length_cons]
    -- The namespace grows exactly if the name is new to it.
    have hfirst : (space.putType type).types.length
        = space.types.length + if space.declares type.name then 0 else 1 := by
      rw [putType]
      split <;> simp
    cases hdeclares : space.declares type.name with
    | true =>
      rw [hdeclares, if_pos rfl] at hfirst
      rw [if_pos rfl, List.length_cons]
      omega
    | false =>
      rw [hdeclares, if_neg Bool.false_ne_true] at hfirst
      rw [if_neg Bool.false_ne_true]
      omega

/-- The conflicts of putting types are the repeats among their names after those before them. -/
theorem repeats_append_names {space : Namespace} {earlier : List Conflict}
    (hearlier : ∀ name, { space := space.name, type := name } ∈ earlier ↔
      space.declares name = true) (types : List TypeDecl) :
    Keyed.repeats
        (earlier ++ types.map fun type => { space := space.name, type := type.name })
      = Keyed.repeats earlier ++ space.conflictsOf types := by
  induction types generalizing space earlier with
  | nil => rw [List.map_nil, List.append_nil, conflictsOf, List.append_nil]
  | cons type types ih =>
    have hname : (space.putType type).name = space.name := name_putTypes space [type]
    -- With one type more, what came earlier is still what the namespace declares.
    have hlater : ∀ name,
        { space := (space.putType type).name, type := name }
            ∈ earlier ++ [{ space := space.name, type := type.name }] ↔
          (space.putType type).declares name = true := by
      intro name
      rw [hname, List.mem_append, List.mem_singleton, Conflict.mk.injEq, hearlier,
        declares_putType_iff, or_comm]
      simp
    have hrest := ih hlater
    rw [hname, List.append_assoc, List.singleton_append] at hrest
    rw [List.map_cons, hrest, Keyed.repeats_concat, List.append_assoc, conflictsOf]
    congr 1
    simp only [hearlier]
    split <;> rfl

end Namespace

/-! ## Adding one fragment -/

namespace Merged

/-- The namespace of some name, empty if there is none yet. -/
def spaceNamed (merged : Merged) (name : Option String) : Namespace :=
  (merged.get? name).getD { name }

theorem name_eq_of_get? {merged : Merged} {name : Option String} {space : Namespace}
    (h : merged.get? name = some space) : space.name = name := by
  simpa using List.find?_some h

@[simp] theorem name_spaceNamed (merged : Merged) (name : Option String) :
    (merged.spaceNamed name).name = name := by
  rw [spaceNamed]
  cases h : merged.get? name with
  | none => rfl
  | some space => exact name_eq_of_get? h

theorem namespaces_add (merged : Merged) (fragment : Namespace) :
    (merged.add fragment).namespaces
      = Keyed.put Namespace.name merged.namespaces
          ((merged.spaceNamed fragment.name).putTypes fragment.types) :=
  rfl

theorem conflicts_add (merged : Merged) (fragment : Namespace) :
    (merged.add fragment).conflicts
      = merged.conflicts ++ (merged.spaceNamed fragment.name).conflictsOf fragment.types :=
  rfl

/-- A fragment adds its types to the namespace of its name and leaves the others as they are. -/
theorem get?_add (merged : Merged) (fragment : Namespace) (name : Option String) :
    (merged.add fragment).get? name
      = if fragment.name = name then some ((merged.spaceNamed name).putTypes fragment.types)
        else merged.get? name := by
  rw [get?, namespaces_add, Keyed.find?_put, Namespace.name_putTypes, name_spaceNamed]
  split
  case isTrue h => rw [h]
  case isFalse => rfl

theorem spaceNamed_add (merged : Merged) (fragment : Namespace) (name : Option String) :
    (merged.add fragment).spaceNamed name
      = (merged.spaceNamed name).putTypes
          (if fragment.name = name then fragment.types else []) := by
  rw [spaceNamed, get?_add]
  split <;> rfl

end Merged

/-! ## Merging -/

theorem merge_concat (fragments : List Namespace) (fragment : Namespace) :
    merge (fragments ++ [fragment]) = (merge fragments).add fragment := by
  rw [merge, List.foldl_append]
  rfl

theorem typesNamed_concat (fragments : List Namespace) (fragment : Namespace)
    (name : Option String) :
    typesNamed (fragments ++ [fragment]) name
      = typesNamed fragments name ++ if fragment.name = name then fragment.types else [] := by
  rw [typesNamed, List.filter_append, List.flatMap_append, typesNamed, List.filter_singleton]
  congr 1
  by_cases h : fragment.name = name <;> simp [h]

/-- The namespaces stand in the order in which their names first occur. -/
theorem names_merge (fragments : List Namespace) :
    (merge fragments).namespaces.map Namespace.name
      = (fragments.map Namespace.name).eraseDups := by
  induction fragments using List.reverseRecOn with
  | nil => rfl
  | append_singleton fragments fragment ih =>
    rw [merge_concat, Merged.namespaces_add, Keyed.map_key_put_eq_eraseDups ih,
      Namespace.name_putTypes, Merged.name_spaceNamed, List.map_append, List.map_singleton]

theorem nodup_names_merge (fragments : List Namespace) :
    ((merge fragments).namespaces.map Namespace.name).Nodup := by
  rw [names_merge]
  exact Keyed.nodup_eraseDups _

/-- The namespace of a name holds the types of all fragments of that name. -/
theorem spaceNamed_merge (fragments : List Namespace) (name : Option String) :
    (merge fragments).spaceNamed name
      = ({ name } : Namespace).putTypes (typesNamed fragments name) := by
  induction fragments using List.reverseRecOn with
  | nil => rfl
  | append_singleton fragments fragment ih =>
    rw [merge_concat, Merged.spaceNamed_add, ih, ← Namespace.putTypes_append, typesNamed_concat]

/-- There is a namespace of every name that a fragment has, and of no other. -/
theorem get?_merge (fragments : List Namespace) (name : Option String) :
    (merge fragments).get? name
      = if name ∈ fragments.map Namespace.name then
          some (({ name } : Namespace).putTypes (typesNamed fragments name))
        else none := by
  have hsome : ((merge fragments).get? name).isSome ↔ name ∈ fragments.map Namespace.name := by
    rw [← List.mem_eraseDups, ← names_merge, Merged.get?, List.find?_isSome, List.mem_map]
    simp only [decide_eq_true_iff]
  have hspace := spaceNamed_merge fragments name
  rw [Merged.spaceNamed] at hspace
  cases hget : (merge fragments).get? name with
  | none =>
    rw [hget] at hsome
    rw [if_neg (by simpa using hsome)]
  | some space =>
    rw [hget] at hsome hspace
    rw [if_pos (hsome.1 rfl), ← hspace, Option.getD_some]

/-- There is a namespace of every name under which a fragment has types. -/
theorem get?_merge_of_mem {fragments : List Namespace} {name : Option String} {type : TypeDecl}
    (h : type ∈ typesNamed fragments name) :
    (merge fragments).get? name
      = some (({ name } : Namespace).putTypes (typesNamed fragments name)) := by
  obtain ⟨fragment, hfragment, -⟩ := List.mem_flatMap.1 h
  obtain ⟨hmem, hname⟩ := List.mem_filter.1 hfragment
  rw [get?_merge, if_pos (List.mem_map.2 ⟨fragment, hmem, of_decide_eq_true hname⟩)]

/-- A merged namespace is the one of its name. -/
theorem eq_putTypes_of_mem_merge {fragments : List Namespace} {space : Namespace}
    (h : space ∈ (merge fragments).namespaces) :
    space = ({ name := space.name } : Namespace).putTypes (typesNamed fragments space.name) := by
  have hfound : (merge fragments).get? space.name = some space :=
    Keyed.find?_key_eq_some (nodup_names_merge fragments) h
  rw [← spaceNamed_merge, Merged.spaceNamed, hfound, Option.getD_some]

/-! ## Conflicts -/

/-- What is declared in fragments is what the merged namespaces declare. -/
theorem mem_flatMap_declared_iff {fragments : List Namespace} {space : Option String}
    {type : String} :
    { space, type } ∈ fragments.flatMap Namespace.declared ↔
      ((merge fragments).spaceNamed space).declares type = true := by
  rw [spaceNamed_merge, Namespace.putTypes_nil_eq, Namespace.declares_eq_true_iff,
    Keyed.map_key_putAll, List.mem_eraseDups, List.mem_map, List.mem_flatMap]
  constructor
  · rintro ⟨fragment, hfragment, hdeclared⟩
    obtain ⟨decl, hdecl, heq⟩ := List.mem_map.1 hdeclared
    obtain ⟨rfl, rfl⟩ := Conflict.mk.inj heq
    refine ⟨decl, List.mem_flatMap.2 ⟨fragment, ?_, hdecl⟩, rfl⟩
    exact List.mem_filter.2 ⟨hfragment, decide_eq_true rfl⟩
  · rintro ⟨decl, hdecl, rfl⟩
    obtain ⟨fragment, hfragment, htypes⟩ := List.mem_flatMap.1 hdecl
    obtain ⟨hmem, hname⟩ := List.mem_filter.1 hfragment
    obtain rfl := of_decide_eq_true hname
    exact ⟨fragment, hmem, List.mem_map.2 ⟨decl, htypes, rfl⟩⟩

/-- The conflicts are the declarations under a name that was taken before, in order. -/
theorem conflicts_merge (fragments : List Namespace) :
    (merge fragments).conflicts = Keyed.repeats (fragments.flatMap Namespace.declared) := by
  induction fragments using List.reverseRecOn with
  | nil => rfl
  | append_singleton fragments fragment ih =>
    have hearlier : ∀ type,
        { space := ((merge fragments).spaceNamed fragment.name).name, type }
            ∈ fragments.flatMap Namespace.declared ↔
          ((merge fragments).spaceNamed fragment.name).declares type = true := by
      intro type
      rw [Merged.name_spaceNamed]
      exact mem_flatMap_declared_iff
    have hstep := Namespace.repeats_append_names hearlier fragment.types
    rw [Merged.name_spaceNamed] at hstep
    rw [merge_concat, Merged.conflicts_add, ih, ← hstep, List.flatMap_append, List.flatMap_cons,
      List.flatMap_nil, List.append_nil, Namespace.declared]

/-- Each type of the input is a type of the result or a conflict. -/
theorem length_flatMap_types_merge (fragments : List Namespace) :
    (fragments.flatMap Namespace.types).length
      = ((merge fragments).namespaces.flatMap Namespace.types).length
        + (merge fragments).conflicts.length := by
  induction fragments using List.reverseRecOn with
  | nil => rfl
  | append_singleton fragments fragment ih =>
    have hlength := Keyed.length_flatMap_put Namespace.types (nodup_names_merge fragments)
      (((merge fragments).spaceNamed fragment.name).putTypes fragment.types)
    have hput := Namespace.length_putTypes ((merge fragments).spaceNamed fragment.name)
      fragment.types
    -- What the fragment takes the place of is the namespace of its name, or nothing.
    have hold : ((Merged.get? (merge fragments) fragment.name).map fun space =>
        space.types.length).getD 0
          = ((merge fragments).spaceNamed fragment.name).types.length := by
      rw [Merged.spaceNamed]
      cases (merge fragments).get? fragment.name <;> rfl
    rw [← Merged.namespaces_add, Namespace.name_putTypes, Merged.name_spaceNamed, ← Merged.get?,
      hold] at hlength
    rw [merge_concat, Merged.conflicts_add, List.length_append, List.flatMap_append,
      List.length_append, ih, List.flatMap_singleton]
    omega

/-! ## The whole -/

/-- What a merged program is to the fragments it was merged from. -/
structure IsUnion (fragments : List Namespace) (merged : Merged) : Prop where
  nodup_names : (merged.namespaces.map Namespace.name).Nodup
  names_eq : merged.namespaces.map Namespace.name = (fragments.map Namespace.name).eraseDups
  nodup_types : ∀ space ∈ merged.namespaces, (space.types.map TypeDecl.name).Nodup
  types_eq : ∀ space ∈ merged.namespaces,
    space.types.map TypeDecl.name
      = ((typesNamed fragments space.name).map TypeDecl.name).eraseDups
  isLast : ∀ space ∈ merged.namespaces, ∀ type ∈ space.types,
    Keyed.IsLast TypeDecl.name (typesNamed fragments space.name) type
  conflicts_eq : merged.conflicts = Keyed.repeats (fragments.flatMap Namespace.declared)
  length_eq : (fragments.flatMap Namespace.types).length
    = (merged.namespaces.flatMap Namespace.types).length + merged.conflicts.length

/-- Merging unites fragments by name: the first occurrence of a name gives the place, the last
declaration of a type its content. -/
theorem merge_isUnion (fragments : List Namespace) : IsUnion fragments (merge fragments) := by
  have htypes : ∀ space ∈ (merge fragments).namespaces,
      space.types = Keyed.putAll TypeDecl.name (typesNamed fragments space.name) := by
    intro space hspace
    have heq := eq_putTypes_of_mem_merge hspace
    rw [Namespace.putTypes_nil_eq] at heq
    exact congrArg Namespace.types heq
  refine ⟨nodup_names_merge fragments, names_merge fragments, ?_, ?_, ?_,
    conflicts_merge fragments, length_flatMap_types_merge fragments⟩
  · intro space hspace
    rw [htypes space hspace]
    exact Keyed.nodup_map_key_putAll _
  · intro space hspace
    rw [htypes space hspace]
    exact Keyed.map_key_putAll _
  · intro space hspace type htype
    rw [htypes space hspace] at htype
    exact Keyed.isLast_of_mem_putAll htype

end Recast
