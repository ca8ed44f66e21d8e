import Recast.Proofs.Merge

/-!
# Merging with an index

Fragments can be merged without looking through the names that are there already. A table keeps
elements in an array, and in an index the place of each key. A bucket is a namespace whose types are
such a table, and the buckets are one themselves, by the names of the namespaces.

A table carries the proof that its index is right: a key is indexed at a place if and only if the
element there has this key. So no key occurs twice, every place in the index is a place in the
array, and an element that takes the place of another one has the same key. Hence putting an element
into a table is what `Keyed.put` does to a list (`Table.toList_put`), and merging with buckets gives
what `merge` gives, with the same conflicts in the same order (`Buckets.merged_addAll`).
-/

set_option autoImplicit false

namespace Recast

/-! ## Tables -/

/-- Elements in an array, with the place of each key in an index. -/
structure Table {α κ : Type} [DecidableEq κ] [Hashable κ] (key : α → κ) where
  items : Array α
  index : Std.HashMap κ Nat
  index_eq_some_iff : ∀ k place, index[k]? = some place ↔ items[place]?.map key = some k

namespace Table

variable {α κ : Type} [DecidableEq κ] [Hashable κ] {key : α → κ}

/-- The table without elements. -/
def empty : Table key where
  items := #[]
  index := ∅
  index_eq_some_iff := by simp

/-- The element with some key. -/
def get? (table : Table key) (k : κ) : Option α := do
  let place ← table.index[k]?
  table.items[place]?

theorem lt_size {table : Table key} {k : κ} {place : Nat} (h : table.index[k]? = some place) :
    place < table.items.size := by
  obtain ⟨x, hx, -⟩ := Option.map_eq_some_iff.1 ((table.index_eq_some_iff k place).1 h)
  exact (Array.getElem?_eq_some_iff.1 hx).1

/-- An element that takes the place of its key leaves the index right. -/
theorem index_eq_some_iff_set {table : Table key} {x : α} {taken : Nat}
    (h : table.index[key x]? = some taken) (k : κ) (place : Nat) :
    table.index[k]? = some place ↔
      (table.items.set taken x (lt_size h))[place]?.map key = some k := by
  rw [table.index_eq_some_iff, Array.getElem?_set]
  split
  next heq =>
    rw [← heq, (table.index_eq_some_iff _ _).1 h]
    rfl
  next => rfl

/-- An element with a new key is indexed at the end. -/
theorem index_eq_some_iff_push {table : Table key} {x : α} (h : table.index[key x]? = none)
    (k : κ) (place : Nat) :
    (table.index.insert (key x) table.items.size)[k]? = some place ↔
      (table.items.push x)[place]?.map key = some k := by
  rw [Std.HashMap.getElem?_insert, Array.getElem?_push]
  by_cases hkey : key x = k
  · -- The new key is at the end and, as it was not there before, nowhere else.
    subst hkey
    rw [if_pos (by simp), Option.some.injEq]
    split
    next heq => simp [heq]
    next hne =>
      rw [← table.index_eq_some_iff, h]
      simp [Ne.symm hne]
  · rw [if_neg (by simpa using hkey), table.index_eq_some_iff]
    split
    next heq => simp [heq, hkey]
    next => rfl

/-- Puts an element in the place of the one with its key, or at the end. -/
def put (table : Table key) (x : α) : Table key :=
  match h : table.index[key x]? with
  | some place => {
      items := table.items.set place x (lt_size h)
      index := table.index
      index_eq_some_iff := index_eq_some_iff_set h }
  | none => {
      items := table.items.push x
      index := table.index.insert (key x) table.items.size
      index_eq_some_iff := index_eq_some_iff_push h }

/-- The elements in order. -/
def toList (table : Table key) : List α :=
  table.items.toList

theorem getElem?_toList_eq_iff {table : Table key} {k : κ} {place : Nat} :
    (table.toList.map key)[place]? = some k ↔ table.index[k]? = some place := by
  rw [table.index_eq_some_iff, List.getElem?_map, toList, Array.getElem?_toList]

/-- No key occurs twice. -/
theorem nodup_map_key_toList (table : Table key) : (table.toList.map key).Nodup := by
  rw [List.nodup_iff_getElem?_ne_getElem?]
  intro i j hlt hlength heq
  rw [List.getElem?_eq_getElem hlength, getElem?_toList_eq_iff] at heq
  have hlast := getElem?_toList_eq_iff.1 (List.getElem?_eq_getElem hlength)
  rw [hlast, Option.some.injEq] at heq
  omega

theorem mem_map_key_toList_iff {table : Table key} {k : κ} :
    k ∈ table.toList.map key ↔ ∃ place, table.index[k]? = some place := by
  rw [List.mem_iff_getElem?]
  simp only [getElem?_toList_eq_iff]

/-- The index finds what a search through all elements finds. -/
theorem get?_eq_find? (table : Table key) (k : κ) :
    table.get? k = table.toList.find? fun x => key x = k := by
  rw [get?]
  cases hindex : table.index[k]? with
  | none =>
    have hnot : k ∉ table.toList.map key := by
      rw [mem_map_key_toList_iff, hindex]
      simp
    rw [Keyed.find?_eq_none_of_not_mem hnot]
    rfl
  | some place =>
    obtain ⟨x, hx, rfl⟩ := Option.map_eq_some_iff.1 ((table.index_eq_some_iff k place).1 hindex)
    have hmem : x ∈ table.toList := by
      rw [toList, Array.mem_toList_iff]
      exact Array.mem_of_getElem? hx
    rw [Keyed.find?_key_eq_some table.nodup_map_key_toList hmem]
    exact hx

/-- To replace every element with a key is to replace the one at its place. -/
theorem map_replace_eq_set {table : Table key} {x : α} {place : Nat}
    (h : table.index[key x]? = some place) :
    (table.toList.map fun old => if key old = key x then x else old)
      = table.toList.set place x := by
  apply List.ext_getElem?
  intro other
  rw [List.getElem?_set, List.getElem?_map]
  cases hold : table.toList[other]? with
  | none =>
    have hlength := List.getElem?_eq_none_iff.1 hold
    split
    next heq => rw [if_neg (by omega), Option.map_none]
    next => rw [Option.map_none]
  | some old =>
    obtain ⟨hlt, -⟩ := List.getElem?_eq_some_iff.1 hold
    have hkey : key old = key x ↔ place = other :=
      calc key old = key x
        _ ↔ (table.toList.map key)[other]? = some (key x) := by
          rw [List.getElem?_map, hold, Option.map_some, Option.some.injEq]
        _ ↔ table.index[key x]? = some other := getElem?_toList_eq_iff
        _ ↔ place = other := by rw [h, Option.some.injEq]
    simp only [Option.map_some, hkey]
    split
    next => rw [if_pos (by omega)]
    next => rfl

/-- Putting by the index is putting by the keys. -/
theorem toList_put (table : Table key) (x : α) :
    (table.put x).toList = Keyed.put key table.toList x := by
  rw [put]
  split
  next place hindex =>
    have hmem : key x ∈ table.toList.map key := mem_map_key_toList_iff.2 ⟨place, hindex⟩
    rw [Keyed.put_of_mem hmem, map_replace_eq_set hindex, toList, Array.toList_set, toList]
  next hindex =>
    have hnot : key x ∉ table.toList.map key := by
      rw [mem_map_key_toList_iff, hindex]
      simp
    rw [Keyed.put_of_not_mem hnot, toList, Array.toList_push, toList]

end Table

/-! ## Buckets of types -/

/-- A namespace whose types are a table. -/
structure Bucket where
  name : Option String
  types : Table TypeDecl.name

namespace Bucket

/-- The namespace that a bucket stands for. -/
def space (bucket : Bucket) : Namespace where
  name := bucket.name
  types := bucket.types.toList

theorem name_space (bucket : Bucket) : bucket.space.name = bucket.name :=
  rfl

/-- Declares a type in a bucket. A name that is taken is a conflict. -/
def declare (state : Bucket × List Conflict) (type : TypeDecl) : Bucket × List Conflict :=
  let (bucket, conflicts) := state
  let next := { bucket with types := bucket.types.put type }
  match bucket.types.index[type.name]? with
  | some _ => (next, conflicts ++ [{ space := bucket.name, type := type.name }])
  | none => (next, conflicts)

theorem declares_space_iff {bucket : Bucket} {name : String} :
    bucket.space.declares name = true ↔ ∃ place, bucket.types.index[name]? = some place := by
  rw [Namespace.declares_eq_true_iff, ← Table.mem_map_key_toList_iff]
  rfl

/-- A type that is declared is put into the namespace, and the conflict is the one there. -/
theorem declare_eq (bucket : Bucket) (conflicts : List Conflict) (type : TypeDecl) :
    (declare (bucket, conflicts) type).1.space = bucket.space.putType type ∧
      (declare (bucket, conflicts) type).2
        = conflicts ++ if bucket.space.declares type.name
            then [{ space := bucket.space.name, type := type.name }] else [] := by
  have hspace : ({ bucket with types := bucket.types.put type } : Bucket).space
      = bucket.space.putType type := by
    rw [Namespace.putType_eq, space, Table.toList_put]
    rfl
  rw [declare]
  split
  next place hindex =>
    rw [if_pos (declares_space_iff.2 ⟨place, hindex⟩)]
    exact ⟨hspace, rfl⟩
  next hindex =>
    rw [if_neg (by rw [declares_space_iff, hindex]; simp), List.append_nil]
    exact ⟨hspace, rfl⟩

/-- Types that are declared one after the other are put into the namespace one after the other. -/
theorem foldl_declare_eq (bucket : Bucket) (conflicts : List Conflict) (types : List TypeDecl) :
    (types.foldl declare (bucket, conflicts)).1.space = bucket.space.putTypes types ∧
      (types.foldl declare (bucket, conflicts)).2
        = conflicts ++ bucket.space.conflictsOf types := by
  induction types generalizing bucket conflicts with
  | nil => exact ⟨rfl, (List.append_nil conflicts).symm⟩
  | cons type types ih =>
    obtain ⟨hspace, hconflicts⟩ := declare_eq bucket conflicts type
    obtain ⟨hspaces, hrest⟩ :=
      ih (declare (bucket, conflicts) type).1 (declare (bucket, conflicts) type).2
    rw [List.foldl_cons, hspaces, hrest, hspace, hconflicts, Namespace.conflictsOf,
      List.append_assoc]
    refine ⟨rfl, ?_⟩
    split <;> rfl

end Bucket

/-! ## Buckets of namespaces -/

/-- The buckets by their names, and the conflicts so far. -/
structure Buckets where
  table : Table Bucket.name := .empty
  conflicts : List Conflict := []

namespace Buckets

/-- Adds one fragment: its types are declared in the bucket of its name, in a new one if there is
none. -/
def add (buckets : Buckets) (fragment : Namespace) : Buckets :=
  let bucket := (buckets.table.get? fragment.name).getD { name := fragment.name, types := .empty }
  let (bucket, conflicts) := fragment.types.foldl Bucket.declare (bucket, buckets.conflicts)
  { table := buckets.table.put bucket, conflicts }

/-- The merged namespaces that buckets stand for. -/
def merged (buckets : Buckets) : Merged where
  namespaces := buckets.table.toList.map Bucket.space
  conflicts := buckets.conflicts

/-- The bucket of a name stands for the namespace of the name. -/
theorem space_getD_get? (buckets : Buckets) (name : Option String) :
    ((buckets.table.get? name).getD { name, types := .empty }).space
      = buckets.merged.spaceNamed name := by
  rw [Table.get?_eq_find?, Merged.spaceNamed, Merged.get?, merged, List.find?_map]
  have htest : ((fun space : Namespace => decide (space.name = name)) ∘ Bucket.space)
      = fun bucket : Bucket => decide (bucket.name = name) := rfl
  rw [htest]
  cases buckets.table.toList.find? fun bucket => bucket.name = name <;> rfl

/-- One fragment is added as it is added to the merged namespaces. -/
theorem merged_add (buckets : Buckets) (fragment : Namespace) :
    (buckets.add fragment).merged = buckets.merged.add fragment := by
  obtain ⟨hspace, hconflicts⟩ := Bucket.foldl_declare_eq
    ((buckets.table.get? fragment.name).getD { name := fragment.name, types := .empty })
    buckets.conflicts fragment.types
  rw [space_getD_get?] at hspace hconflicts
  have hput : ∀ bucket : Bucket, (buckets.table.put bucket).toList.map Bucket.space
      = Keyed.put Namespace.name buckets.merged.namespaces bucket.space := by
    intro bucket
    rw [Table.toList_put]
    exact Keyed.map_put Bucket.name_space buckets.table.toList bucket
  rw [merged, add, hput, hspace]
  exact congrArg (Merged.mk _) hconflicts

/-- Merging with buckets is merging. -/
theorem merged_addAll (fragments : List Namespace) :
    (fragments.foldl add {}).merged = merge fragments := by
  induction fragments using List.reverseRecOn with
  | nil => rfl
  | append_singleton fragments fragment ih =>
    rw [List.foldl_concat, merged_add, ih, merge_concat]

end Buckets

end Recast
