import Recast.Proofs.Pipeline
import Recast.Proofs.Regroup

/-!
# Merging and passes

A change of classes that keeps their names commutes with merging (`merge_map_mapClasses`), because
merging looks at names only. The step is `Merged.add_mapClasses`: adding a changed fragment to a
changed program is adding the fragment and then changing the whole. A type that is replaced later
may well have been changed before; it is gone either way.

The usual passes are such a change, so they can be run on the fragments or on what the fragments are
merged into (`merge_onEach_pipeline`).
-/

set_option autoImplicit false

namespace Recast

/-- A change of classes that keeps their names. -/
def KeepsNames (f : ClassDecl → ClassDecl) : Prop :=
  ∀ decl, (f decl).name = decl.name

/-! ## Types and namespaces -/

theorem TypeDecl.name_mapClass {f : ClassDecl → ClassDecl} (hf : KeepsNames f) (type : TypeDecl) :
    (type.mapClass f).name = type.name := by
  cases type with
  | ofClass decl => exact hf decl
  | ofEnum decl => rfl

namespace Namespace

variable {f : ClassDecl → ClassDecl}

theorem declares_mapClasses (hf : KeepsNames f) (space : Namespace) (name : String) :
    (space.mapClasses f).declares name = space.declares name := by
  rw [declares, mapClasses, List.any_map, declares]
  congr 1
  funext type
  rw [Function.comp_apply, TypeDecl.name_mapClass hf]

theorem mapClasses_putType (hf : KeepsNames f) (space : Namespace) (type : TypeDecl) :
    (space.putType type).mapClasses f = (space.mapClasses f).putType (type.mapClass f) := by
  rw [putType_eq, putType_eq, mapClasses, Keyed.map_put (TypeDecl.name_mapClass hf)]
  rfl

theorem mapClasses_putTypes (hf : KeepsNames f) (space : Namespace) (types : List TypeDecl) :
    (space.putTypes types).mapClasses f
      = (space.mapClasses f).putTypes (types.map (TypeDecl.mapClass f)) := by
  induction types generalizing space with
  | nil => rfl
  | cons type types ih =>
    rw [putTypes, List.foldl_cons, ← putTypes, ih, mapClasses_putType hf]
    rfl

/-- The conflicts of changed types are those of the types. -/
theorem conflictsOf_mapClasses (hf : KeepsNames f) (space : Namespace) (types : List TypeDecl) :
    (space.mapClasses f).conflictsOf (types.map (TypeDecl.mapClass f))
      = space.conflictsOf types := by
  induction types generalizing space with
  | nil => rfl
  | cons type types ih =>
    have hlater := ih (space.putType type)
    rw [mapClasses_putType hf] at hlater
    rw [List.map_cons, conflictsOf, conflictsOf, hlater, declares_mapClasses hf,
      TypeDecl.name_mapClass hf]
    rfl

end Namespace

/-! ## Merged programs -/

namespace Merged

/-- Changes every class of a merged program. -/
def mapClasses (f : ClassDecl → ClassDecl) (merged : Merged) : Merged :=
  { merged with namespaces := merged.namespaces.map (Namespace.mapClasses f) }

variable {f : ClassDecl → ClassDecl}

@[simp] theorem namespaces_mapClasses (merged : Merged) :
    (merged.mapClasses f).namespaces = merged.namespaces.map (Namespace.mapClasses f) :=
  rfl

@[simp] theorem conflicts_mapClasses (merged : Merged) :
    (merged.mapClasses f).conflicts = merged.conflicts :=
  rfl

theorem get?_mapClasses (merged : Merged) (name : Option String) :
    (merged.mapClasses f).get? name = (merged.get? name).map (Namespace.mapClasses f) := by
  rw [get?, mapClasses, List.find?_map]
  rfl

theorem spaceNamed_mapClasses (merged : Merged) (name : Option String) :
    (merged.mapClasses f).spaceNamed name = (merged.spaceNamed name).mapClasses f := by
  rw [spaceNamed, get?_mapClasses, spaceNamed]
  cases merged.get? name <;> rfl

/-- A changed fragment is added to a changed program as the fragment is to the program. -/
theorem add_mapClasses (hf : KeepsNames f) (merged : Merged) (fragment : Namespace) :
    (merged.mapClasses f).add (fragment.mapClasses f) = (merged.add fragment).mapClasses f := by
  have hspace : (merged.mapClasses f).spaceNamed (fragment.mapClasses f).name
      = (merged.spaceNamed fragment.name).mapClasses f :=
    spaceNamed_mapClasses merged fragment.name
  have htypes : (fragment.mapClasses f).types = fragment.types.map (TypeDecl.mapClass f) := rfl
  -- The namespace that the fragment goes to keeps its name, so it is put in the same place.
  have hput : ∀ spaces space, (Keyed.put Namespace.name spaces space).map (Namespace.mapClasses f)
      = Keyed.put Namespace.name (spaces.map (Namespace.mapClasses f)) (space.mapClasses f) :=
    Keyed.map_put fun _ => rfl
  apply Merged.eq_of_parts
  · rw [namespaces_add, hspace, htypes, ← Namespace.mapClasses_putTypes hf, namespaces_mapClasses,
      namespaces_mapClasses, namespaces_add, hput]
  · rw [conflicts_add, hspace, htypes, Namespace.conflictsOf_mapClasses hf, conflicts_mapClasses,
      conflicts_mapClasses, conflicts_add]

end Merged

/-- Classes can be changed before merging or after it. -/
theorem merge_map_mapClasses {f : ClassDecl → ClassDecl} (hf : KeepsNames f)
    (fragments : List Namespace) :
    merge (fragments.map (Namespace.mapClasses f)) = (merge fragments).mapClasses f := by
  induction fragments using List.reverseRecOn with
  | nil => rfl
  | append_singleton fragments fragment ih =>
    rw [List.map_append, List.map_singleton, merge_concat, ih, Merged.add_mapClasses hf,
      merge_concat]

/-! ## The usual passes -/

/-- The usual passes on several namespaces lower the classes of each. -/
theorem Pass.result_onEach_pipeline (settings : Settings) (spaces : List Namespace) :
    (onEach (pipeline settings) spaces).result
      = .ok (spaces.map (Namespace.mapClasses (lower settings))) := by
  induction spaces with
  | nil => rfl
  | cons space spaces ih =>
    refine Traced.result_cons_eq_ok_iff.2 ⟨_, _, result_pipeline settings space, ih, ?_⟩
    exact List.map_cons

theorem Pass.keepsNames_lower (settings : Settings) : KeepsNames (lower settings) :=
  fun _ => rfl

/-- The usual passes can be run on fragments before they are merged, or on the namespaces that the
fragments are merged into: the namespaces and the conflicts are the same. -/
theorem merge_onEach_pipeline (settings : Settings) (fragments : List Namespace) :
    ∃ lowered spaces,
      (Pass.onEach (Pass.pipeline settings) fragments).result = .ok lowered ∧
        (Pass.onEach (Pass.pipeline settings) (merge fragments).namespaces).result = .ok spaces ∧
        (merge lowered).namespaces = spaces ∧
        (merge lowered).conflicts = (merge fragments).conflicts := by
  have hmerge := merge_map_mapClasses (Pass.keepsNames_lower settings) fragments
  refine ⟨_, _, Pass.result_onEach_pipeline settings fragments,
    Pass.result_onEach_pipeline settings (merge fragments).namespaces, ?_, ?_⟩
  · rw [hmerge, Merged.namespaces_mapClasses]
  · rw [hmerge, Merged.conflicts_mapClasses]

end Recast
