import Recast.Tree.Node

/-!
# Scopes

Every type declaration of a tree belongs to the innermost namespace around it, however deep it
stands, also inside another type or a body. A scope is a namespace with the declarations that belong
to it, both in pre-order. The name of a namespace inside another one is joined to the outer name by
a point, unless the outer name is empty.

`Node.scopes` lists all scopes of a tree in pre-order. Declarations outside of any namespace form a
scope without a name in front, which is left out if it would be empty and there are others.
-/

set_option autoImplicit false

namespace Recast

/-- A namespace of a tree with the type declarations that belong to it. -/
structure Scope where
  name : Option String
  decls : List Node
deriving Repr

/-- What is found in a part of a tree: the declarations that belong to the namespace around it, and
the scopes that begin in it. -/
structure Found where
  decls : List Node := []
  scopes : List Scope := []

/-- First what is found in one part, then what is found in the next. -/
def Found.append (first next : Found) : Found :=
  { decls := first.decls ++ next.decls, scopes := first.scopes ++ next.scopes }

/-- The name of a namespace inside another one. -/
def Scope.qualify (outer name : String) : String :=
  if outer = "" then name else outer ++ "." ++ name

namespace Node

mutual

/-- What is found at and below a node inside the namespace `outer`. -/
def found (outer : String) : Node → Found
  | node@⟨kind, _, name, _, _, _, _, children⟩ =>
    if kind = .namespaceDecl then
      let inner := foundAll (Scope.qualify outer name) children
      { scopes :=
          { name := some (Scope.qualify outer name), decls := inner.decls } :: inner.scopes }
    else
      let inner := foundAll outer children
      if kind.isTypeDeclaration then { inner with decls := node :: inner.decls } else inner

/-- What is found at and below several nodes inside the namespace `outer`. -/
def foundAll (outer : String) : List Node → Found
  | [] => {}
  | node :: nodes => (node.found outer).append (foundAll outer nodes)

end

/-- The scopes of a tree. -/
def scopes (root : Node) : List Scope :=
  let inner := root.found ""
  if inner.decls.isEmpty && !inner.scopes.isEmpty then inner.scopes
  else { name := none, decls := inner.decls } :: inner.scopes

end Node

/-- The declarations of a scope in the order in which they are built: enumerations last. -/
def Scope.ordered (scope : Scope) : List Node :=
  scope.decls.filter (fun decl => decl.kind ≠ .enumDecl)
    ++ scope.decls.filter (fun decl => decl.kind = .enumDecl)

end Recast
