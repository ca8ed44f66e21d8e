import Recast.Tree.Kind

/-!
# Faults of a build

Why a build fails. A field declaration has to bind exactly one variable; a build of one namespace
needs exactly one; a build can be cancelled between two types; and there may be no workers for it.
-/

set_option autoImplicit false

namespace Recast

/-- Why a build fails. -/
inductive BuildFault where
  | fieldBindings (names : List String)
  | namespaceCount (found : Nat)
  | cancelled (next : String)
  | noWorkers (reason : String)
deriving DecidableEq, Repr

/-- The message of a fault. -/
def BuildFault.message : BuildFault → String
  | .fieldBindings names =>
    "builder precondition violated at " ++ Kind.fieldDecl.display ++ " `"
      ++ ", ".intercalate names ++ "`: field declaration binds " ++ toString names.length
      ++ " variables, expected exactly one"
  | .namespaceCount found =>
    "expected exactly one namespace fragment, found " ++ toString found
  | .cancelled next => "build cancelled before type `" ++ next ++ "`"
  | .noWorkers reason => "failed to start builder thread pool: " ++ reason

end Recast
