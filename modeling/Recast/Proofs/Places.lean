import Recast.Command.Disk

/-!
# Places below a directory

Where a path leads does not depend on what stands there: each part takes one step, and only whether
the steps can be taken is a matter of the files (`Disk.placeOf`). A path is put together from a
directory and a name by `joinPath`, with one slash between them or none, depending on how the
directory is written. For a name that is one part of a path and leads on (`IsFileName`) the spelling
makes no difference: the new place is the place of the directory with the name behind it
(`Disk.placeOf_joinPath`), whether the directory is written from the root or from the top. So
different names in a directory are different places.
-/

set_option autoImplicit false

namespace Recast.Command

/-! ## Parts of a path -/

/-- Every path has a part, the empty path an empty one. -/
theorem pathParts_ne_nil (s : List Char) : pathParts s ≠ [] := by
  cases s with
  | nil => simp [pathParts]
  | cons c s =>
    rw [pathParts]
    split
    · simp
    · split <;> simp

/-- A slash cuts the parts of a path in two. -/
theorem pathParts_append_slash (s t : List Char) :
    pathParts (s ++ '/' :: t) = pathParts s ++ pathParts t := by
  induction s with
  | nil => simp [pathParts]
  | cons c s ih =>
    rw [List.cons_append, pathParts, pathParts, ih]
    split
    · rfl
    · -- The first part of the rest is the one that `c` belongs to.
      cases hparts : pathParts s with
      | nil => exact absurd hparts (pathParts_ne_nil s)
      | cons part parts => rfl

/-- A text without a slash is one part. -/
theorem pathParts_of_not_mem {s : List Char} (h : '/' ∉ s) : pathParts s = [s] := by
  induction s with
  | nil => rfl
  | cons c s ih =>
    rw [List.mem_cons, not_or] at h
    rw [pathParts, if_neg (Ne.symm h.1), ih h.2]

/-! ## Names in a directory -/

/-- A text that names something in a directory: it is one part of a path and leads on from there. -/
structure IsFileName (name : String) : Prop where
  ne_empty : name ≠ ""
  ne_point : name ≠ "."
  ne_upward : name ≠ ".."
  not_mem_slash : '/' ∉ name.toList

instance (name : String) : Decidable (IsFileName name) :=
  decidable_of_iff (name ≠ "" ∧ name ≠ "." ∧ name ≠ ".." ∧ '/' ∉ name.toList)
    ⟨fun h => ⟨h.1, h.2.1, h.2.2.1, h.2.2.2⟩,
      fun h => ⟨h.ne_empty, h.ne_point, h.ne_upward, h.not_mem_slash⟩⟩

/-- A directory as it is written in front of a name: with a slash at its end, but for the empty
one. -/
def opened (directory : String) : String :=
  if directory = "" ∨ directory.toList.getLast? = some '/' then directory else directory ++ "/"

/-- A name without a slash stands behind its directory as it is. -/
theorem joinPath_eq {path : String} (h : '/' ∉ path.toList) (directory : String) :
    joinPath directory path = opened directory ++ path := by
  unfold joinPath opened
  split
  next rest hpath => simp [hpath] at h
  next hempty _ =>
    rw [List.getLast?_eq_none_iff, String.toList_eq_nil_iff] at hempty
    rw [if_pos (Or.inl hempty), hempty, String.empty_append]
  next hslash _ => rw [if_pos (Or.inr hslash)]
  next last hother hlast _ =>
    rw [if_neg]
    rintro (rfl | hslash)
    · simp at hlast
    · exact hother (Option.some.inj (hlast.symm.trans hslash))

theorem opened_eq_empty_or (directory : String) :
    opened directory = "" ∨ ∃ front, opened directory = front ++ "/" := by
  rw [opened]
  split
  next hplain =>
    rcases hplain with hempty | hslash
    · exact Or.inl hempty
    · obtain ⟨s, hs⟩ := List.getLast?_eq_some_iff.1 hslash
      refine Or.inr ⟨String.ofList s, String.toList_inj.1 ?_⟩
      simp [hs]
  next => exact Or.inr ⟨directory, rfl⟩

theorem joinPath_ne_empty {name : String} (h : IsFileName name) (directory : String) :
    joinPath directory name ≠ "" := by
  rw [joinPath_eq h.not_mem_slash]
  intro hempty
  exact h.ne_empty (String.append_eq_empty_iff.1 hempty).2

/-- Behind a name there is a slash of its own. -/
theorem opened_joinPath {name : String} (h : IsFileName name) (directory : String) :
    opened (joinPath directory name) = joinPath directory name ++ "/" := by
  rw [opened, if_neg]
  rintro (hempty | hlast)
  · exact joinPath_ne_empty h directory hempty
  rw [joinPath_eq h.not_mem_slash, String.toList_append, List.getLast?_append] at hlast
  cases hname : name.toList.getLast? with
  | none =>
    rw [List.getLast?_eq_none_iff, String.toList_eq_nil_iff] at hname
    exact h.ne_empty hname
  | some c =>
    rw [hname, Option.some_or, Option.some.injEq] at hlast
    subst hlast
    exact h.not_mem_slash (List.mem_of_getLast? hname)

namespace Disk

/-- The parts of a text, whether it can be a path or not. -/
def partsOf (path : String) : List String :=
  (pathParts path.toList).map String.ofList

theorem parts?_eq (path : String) :
    parts? path = if isPath path then some (partsOf path) else none :=
  rfl

/-- The place that a path names, whether something stands there or not. -/
def placeOf (top : Place) (path : String) : Place :=
  (partsOf path).foldl follow (start top path)

/-- The parts that lead to a directory. -/
def leading (directory : String) : List String :=
  (partsOf (opened directory)).dropLast

/-- The place of a directory in which names are looked up. -/
def inside (top : Place) (directory : String) : Place :=
  (leading directory).foldl follow (start top (opened directory))

/-- A slash stands between parts. -/
theorem partsOf_append_slash (one other : String) :
    partsOf (one ++ "/" ++ other) = partsOf one ++ partsOf other := by
  have hchars : (one ++ "/" ++ other).toList = one.toList ++ '/' :: other.toList := by
    simp
  rw [partsOf, hchars, pathParts_append_slash, List.map_append]
  rfl

theorem partsOf_of_not_mem {name : String} (h : '/' ∉ name.toList) : partsOf name = [name] := by
  rw [partsOf, pathParts_of_not_mem h]
  simp

theorem partsOf_slash (front : String) : partsOf (front ++ "/") = partsOf front ++ [""] := by
  have hparts := partsOf_append_slash front ""
  rwa [String.append_empty] at hparts

/-- Behind a directory a name is a part of its own. -/
theorem partsOf_opened_append {name : String} (h : '/' ∉ name.toList) (directory : String) :
    partsOf (opened directory ++ name) = leading directory ++ [name] := by
  rw [leading]
  rcases opened_eq_empty_or directory with hempty | ⟨front, hfront⟩
  · rw [hempty, String.empty_append, partsOf_of_not_mem h]
    rfl
  · rw [hfront, partsOf_append_slash, partsOf_slash, List.dropLast_concat, partsOf_of_not_mem h]

theorem partsOf_opened (directory : String) :
    partsOf (opened directory) = leading directory ++ [""] := by
  have hempty : '/' ∉ "".toList := by simp
  have hparts := partsOf_opened_append hempty directory
  rwa [String.append_empty] at hparts

/-- The parts of a path in a directory are those that lead there, and the name. -/
theorem partsOf_joinPath {name : String} (h : IsFileName name) (directory : String) :
    partsOf (joinPath directory name) = leading directory ++ [name] := by
  rw [joinPath_eq h.not_mem_slash, partsOf_opened_append h.not_mem_slash]

theorem leading_joinPath {name : String} (h : IsFileName name) (directory : String) :
    leading (joinPath directory name) = leading directory ++ [name] := by
  rw [leading, opened_joinPath h, partsOf_slash, List.dropLast_concat, partsOf_joinPath h]

theorem follow_of_isFileName {name : String} (h : IsFileName name) (place : Place) :
    follow place name = place ++ [name] := by
  simp [follow, staysPut, h.ne_empty, h.ne_point, h.ne_upward]

/-- Where a path begins is settled by its first letter. -/
theorem start_append {front : String} (h : front ≠ "") (top : Place) (rest : String) :
    start top (front ++ rest) = start top front := by
  rw [start, start, String.toList_append]
  cases hchars : front.toList with
  | nil => exact absurd (String.toList_eq_nil_iff.1 hchars) h
  | cons c s => rfl

/-- A path in a directory begins where the path of the directory does. -/
theorem start_joinPath {name : String} (h : IsFileName name) (top : Place) (directory : String) :
    start top (joinPath directory name) = start top (opened directory) := by
  rw [joinPath_eq h.not_mem_slash]
  by_cases hempty : opened directory = ""
  · -- A name alone does not begin at the root, and neither does the empty path.
    have hhead : name.toList.head? ≠ some '/' := fun hslash =>
      h.not_mem_slash (List.mem_of_head? hslash)
    rw [hempty, String.empty_append, start, if_neg hhead]
    rfl
  · exact start_append hempty top name

/-- A name in a directory is a place in it. -/
theorem placeOf_joinPath {name : String} (h : IsFileName name) (top : Place) (directory : String) :
    placeOf top (joinPath directory name) = inside top directory ++ [name] := by
  rw [placeOf, partsOf_joinPath h, start_joinPath h, List.foldl_append, ← inside, List.foldl_cons,
    List.foldl_nil, follow_of_isFileName h]

theorem start_opened_joinPath {name : String} (h : IsFileName name) (top : Place)
    (directory : String) :
    start top (opened (joinPath directory name)) = start top (opened directory) := by
  rw [opened_joinPath h, start_append (joinPath_ne_empty h directory), start_joinPath h]

/-- What is in a directory under a name is looked up behind the name. -/
theorem inside_joinPath {name : String} (h : IsFileName name) (top : Place) (directory : String) :
    inside top (joinPath directory name) = inside top directory ++ [name] := by
  rw [inside, leading_joinPath h, start_opened_joinPath h, List.foldl_append, ← inside,
    List.foldl_cons, List.foldl_nil, follow_of_isFileName h]

end Disk

end Recast.Command
