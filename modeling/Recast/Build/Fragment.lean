import Recast.Build.Member
import Recast.Build.Scope
import Recast.Build.Workers

/-!
# Building fragments

A tree is built into one fragment for each of its scopes. Before each type the build asks whether it
has been cancelled. A cancellation is given by the number of times that this question is answered
with no: after `some n` such answers every further one is yes, and `none` means that the build is
never cancelled. So a cancellation takes effect between two types only, and whatever was built
before it is as it would have been without.

Several trees are built side by side. Their fragments come in the order of the trees; if trees
cannot be built, the fault of one of them is the fault of the whole.
-/

set_option autoImplicit false

namespace Recast.Build

/-- The types of a scope, as long as the build is not cancelled. -/
def typeDecls : Option Nat → List Node → Traced BuildFault (List TypeDecl)
  | _, [] => pure []
  | some 0, node :: _ => Traced.fail (.cancelled node.name)
  | patience, node :: nodes => do
    return (← typeDecl node) :: (← typeDecls (patience.map (· - 1)) nodes)

/-- The fragment of a scope. -/
def fragment (patience : Option Nat) (scope : Scope) : Traced BuildFault Namespace := do
  let space : Namespace := { name := scope.name, types := ← typeDecls patience scope.ordered }
  Traced.report (.fragmentBuilt space.displayName space.types.length)
  return space

/-- The fragments of several scopes. Each type of a scope takes one answer of the patience. -/
def fragmentsOf : Option Nat → List Scope → Traced BuildFault (List Namespace)
  | _, [] => pure []
  | patience, scope :: scopes => do
    return (← fragment patience scope)
      :: (← fragmentsOf (patience.map (· - scope.decls.length)) scopes)

/-- The fragments of a tree. -/
def fragments (patience : Option Nat) (root : Node) : Traced BuildFault (List Namespace) :=
  fragmentsOf patience root.scopes

/-- The only fragment of a tree. -/
def single (patience : Option Nat) (root : Node) : Traced BuildFault Namespace := do
  match ← fragments patience root with
  | [space] => return space
  | spaces => Traced.fail (.namespaceCount spaces.length)

/-- The fragments of several trees, built by as many workers as are asked for, but at least one. -/
def unitsWithJobs (workers : Workers) (jobs : Nat) (roots : List Node) :
    Traced BuildFault (List Namespace) :=
  match workers.refusal? (max jobs 1) with
  | some reason => Traced.fail (.noWorkers reason)
  | none => do
    let spaces := (← workers.gather (roots.map (fragments none))).flatten
    Traced.report (.unitsBuilt roots.length spaces.length (max jobs 1))
    return spaces

end Recast.Build
