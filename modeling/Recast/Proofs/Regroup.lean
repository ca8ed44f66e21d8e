import Recast.Proofs.Merge

/-!
# Merging in groups

Fragments need not be merged all at once. `namespaces_merge` gives merged namespaces in closed form,
so that two lists of fragments are merged into the same namespaces if their names and, under each
name, their types come to the same (`namespaces_merge_congr`). Merged namespaces can therefore stand
for the fragments that they were merged from, on either side of further fragments.

The conflicts are kept on the left side only: what was merged before has had its conflicts, and the
rest has those that are still missing (`merge_append_eq`). On the right side the conflicts inside of
the group are lost, since the group has no repetitions left when it meets the rest.
-/

set_option autoImplicit false

namespace Recast

/-! ## Merged namespaces in closed form -/

theorem Merged.eq_of_parts {one other : Merged} (hnamespaces : one.namespaces = other.namespaces)
    (hconflicts : one.conflicts = other.conflicts) : one = other := by
  cases one
  cases other
  simp only at hnamespaces hconflicts
  rw [hnamespaces, hconflicts]

/-- The types under a name, if no two namespaces share their name. -/
theorem Merged.typesNamed_namespaces {merged : Merged}
    (h : (merged.namespaces.map Namespace.name).Nodup) (name : Option String) :
    typesNamed merged.namespaces name = (merged.spaceNamed name).types := by
  rw [typesNamed, Keyed.filter_key_eq h, ← Merged.get?, Merged.spaceNamed]
  cases merged.get? name with
  | none => rfl
  | some space => exact List.flatMap_singleton _ _

/-- Under each name, merging puts the types one after the other. -/
theorem typesNamed_merge (fragments : List Namespace) (name : Option String) :
    typesNamed (merge fragments).namespaces name
      = Keyed.putAll TypeDecl.name (typesNamed fragments name) := by
  rw [Merged.typesNamed_namespaces (nodup_names_merge fragments), spaceNamed_merge,
    Namespace.putTypes_nil_eq]

/-- The merged namespaces: one for each name, in the order in which the names first occur. -/
theorem namespaces_merge (fragments : List Namespace) :
    (merge fragments).namespaces
      = (fragments.map Namespace.name).eraseDups.map fun name =>
          { name, types := Keyed.putAll TypeDecl.name (typesNamed fragments name) } := by
  rw [← names_merge, List.map_map]
  refine (List.map_id _).symm.trans (List.map_congr_left fun space hspace => ?_)
  exact (eq_putTypes_of_mem_merge hspace).trans (Namespace.putTypes_nil_eq _ _)

/-- Fragments whose names and types come to the same are merged into the same namespaces. -/
theorem namespaces_merge_congr {xs ys : List Namespace}
    (hnames : (xs.map Namespace.name).eraseDups = (ys.map Namespace.name).eraseDups)
    (htypes : ∀ name, Keyed.putAll TypeDecl.name (typesNamed xs name)
      = Keyed.putAll TypeDecl.name (typesNamed ys name)) :
    (merge xs).namespaces = (merge ys).namespaces := by
  rw [namespaces_merge, namespaces_merge, hnames]
  simp only [htypes]

theorem typesNamed_append (xs ys : List Namespace) (name : Option String) :
    typesNamed (xs ++ ys) name = typesNamed xs name ++ typesNamed ys name := by
  rw [typesNamed, List.filter_append, List.flatMap_append]
  rfl

/-! ## Merging again -/

/-- Merged namespaces are merged into themselves. -/
theorem namespaces_merge_merge (fragments : List Namespace) :
    (merge (merge fragments).namespaces).namespaces = (merge fragments).namespaces := by
  refine namespaces_merge_congr ?_ fun name => ?_
  · -- Names without repetitions stay as they are.
    have h := Keyed.eraseDups_append_eraseDups [] (fragments.map Namespace.name)
    rw [List.nil_append, List.nil_append] at h
    rw [names_merge, h]
  · rw [typesNamed_merge, Keyed.putAll_putAll]

/-- Merged namespaces have no conflicts: as many types come out as go in. -/
theorem conflicts_merge_merge (fragments : List Namespace) :
    (merge (merge fragments).namespaces).conflicts = [] := by
  have hlength := length_flatMap_types_merge (merge fragments).namespaces
  rw [namespaces_merge_merge] at hlength
  exact List.eq_nil_of_length_eq_zero (by omega)

theorem merge_merge (fragments : List Namespace) :
    merge (merge fragments).namespaces
      = { namespaces := (merge fragments).namespaces, conflicts := [] } := by
  apply Merged.eq_of_parts
  · exact namespaces_merge_merge fragments
  · exact conflicts_merge_merge fragments

/-! ## Groups on the left -/

namespace Merged

/-- A merged program with conflicts that came earlier. -/
def after (earlier : List Conflict) (merged : Merged) : Merged :=
  { merged with conflicts := earlier ++ merged.conflicts }

@[simp] theorem namespaces_after (earlier : List Conflict) (merged : Merged) :
    (merged.after earlier).namespaces = merged.namespaces :=
  rfl

@[simp] theorem conflicts_after (earlier : List Conflict) (merged : Merged) :
    (merged.after earlier).conflicts = earlier ++ merged.conflicts :=
  rfl

/-- Adding a fragment does not look at the conflicts so far. -/
theorem add_after (earlier : List Conflict) (merged : Merged) (fragment : Namespace) :
    (merged.after earlier).add fragment = (merged.add fragment).after earlier := by
  apply Merged.eq_of_parts
  · rfl
  · rw [conflicts_add, conflicts_after, List.append_assoc, conflicts_after, conflicts_add]
    rfl

theorem foldl_add_after (earlier : List Conflict) (merged : Merged) (fragments : List Namespace) :
    fragments.foldl add (merged.after earlier) = (fragments.foldl add merged).after earlier := by
  induction fragments generalizing merged with
  | nil => rfl
  | cons fragment fragments ih =>
    rw [List.foldl_cons, add_after, ih, List.foldl_cons]

end Merged

theorem merge_append (xs ys : List Namespace) :
    merge (xs ++ ys) = ys.foldl Merged.add (merge xs) :=
  List.foldl_append

/-- What was merged before can stand for its fragments, and its conflicts come first. -/
theorem merge_append_eq (xs ys : List Namespace) :
    merge (xs ++ ys) = (merge ((merge xs).namespaces ++ ys)).after (merge xs).conflicts := by
  have hmerged : merge xs = (merge (merge xs).namespaces).after (merge xs).conflicts := by
    rw [merge_merge, Merged.after, List.append_nil]
  calc merge (xs ++ ys)
      = ys.foldl Merged.add (merge xs) := merge_append xs ys
    _ = ys.foldl Merged.add ((merge (merge xs).namespaces).after (merge xs).conflicts) := by
        rw [← hmerged]
    _ = (merge ((merge xs).namespaces ++ ys)).after (merge xs).conflicts := by
        rw [Merged.foldl_add_after, merge_append]

/-! ## Groups on the right -/

/-- A group that was merged before can stand for its fragments behind others. -/
theorem namespaces_merge_append_merge (xs ys : List Namespace) :
    (merge (xs ++ (merge ys).namespaces)).namespaces = (merge (xs ++ ys)).namespaces := by
  refine namespaces_merge_congr ?_ fun name => ?_
  · rw [List.map_append, names_merge, List.map_append, Keyed.eraseDups_append_eraseDups]
  · rw [typesNamed_append, typesNamed_merge, typesNamed_append, Keyed.putAll_append_putAll]

/-! ## One name -/

/-- The fragments of other names do not matter to the namespace of a name. -/
theorem get?_merge_filter (fragments : List Namespace) (name : Option String) :
    (merge (fragments.filter fun fragment => fragment.name = name)).get? name
      = (merge fragments).get? name := by
  have htypes : typesNamed (fragments.filter fun fragment => fragment.name = name) name
      = typesNamed fragments name := by
    rw [typesNamed, List.filter_filter]
    simp only [Bool.and_self]
    rfl
  have hnames : name ∈ (fragments.filter fun fragment => fragment.name = name).map Namespace.name ↔
      name ∈ fragments.map Namespace.name := by
    simp only [List.mem_map, List.mem_filter, decide_eq_true_iff]
    constructor
    · rintro ⟨fragment, ⟨hmem, -⟩, hname⟩
      exact ⟨fragment, hmem, hname⟩
    · rintro ⟨fragment, hmem, hname⟩
      exact ⟨fragment, ⟨hmem, hname⟩, hname⟩
  rw [get?_merge, get?_merge, htypes]
  simp only [hnames]

/-- Merging in groups: a group that was merged before can stand for its fragments in front of others
and behind them. In front, the conflicts of the whole are those of the group and those that come
after it. Merging a merged program again changes nothing, and the namespace of a name depends on the
fragments of that name only. -/
theorem merge_regroups (xs ys : List Namespace) :
    (merge (xs ++ ys)).namespaces = (merge ((merge xs).namespaces ++ ys)).namespaces ∧
      (merge (xs ++ ys)).namespaces = (merge (xs ++ (merge ys).namespaces)).namespaces ∧
      (merge (xs ++ ys)).conflicts
        = (merge xs).conflicts ++ (merge ((merge xs).namespaces ++ ys)).conflicts ∧
      merge (merge xs).namespaces
        = { namespaces := (merge xs).namespaces, conflicts := [] } ∧
      ∀ name, (merge xs).get? name
        = (merge (xs.filter fun fragment => fragment.name = name)).get? name := by
  refine ⟨?_, (namespaces_merge_append_merge xs ys).symm, ?_, merge_merge xs, fun name => ?_⟩
  · rw [merge_append_eq, Merged.namespaces_after]
  · rw [merge_append_eq, Merged.conflicts_after]
  · exact (get?_merge_filter xs name).symm

end Recast
