import Recast.Tree.Kind
import Recast.TypeRef.Basic

/-!
# Declaration trees

A node of a tree of declarations: what it is, what it is to its parent, its name and its verbatim
text, its modifiers and attributes, what is known about its type, and its children in order.
-/

set_option autoImplicit false

namespace Recast

/-- Something known about the type of a node. -/
inductive TypeHint where
  | typeDefinition (type : TypeRef)
  | typeReference (type : TypeRef)
  | inferredType (type : TypeRef)
  | ofVariable (name : String) (type : TypeRef)
  | ofField (name : String) (type declaring : TypeRef)
  | ofProperty (name : String) (type declaring : TypeRef)
deriving Repr

/-- A node of a declaration tree. -/
structure Node where
  kind : Kind := .other
  role : Role := .plain
  name : String := ""
  text : String := ""
  modifiers : List Modifier := []
  attributes : List String := []
  hints : List TypeHint := []
  children : List Node := []
deriving Repr, Inhabited

namespace Node

/-- The children with some role, in order. -/
def childrenAs (node : Node) (role : Role) : List Node :=
  node.children.filter fun child => child.role = role

/-- The first child with some role. -/
def childAs? (node : Node) (role : Role) : Option Node :=
  node.children.find? fun child => child.role = role

/-- Whether a node carries a modifier. -/
def has (node : Node) (modifier : Modifier) : Bool :=
  node.modifiers.contains modifier

/-- The verbatim text of the first child with some role; empty if there is none. -/
def textAs (node : Node) (role : Role) : String :=
  ((node.childAs? role).map Node.text).getD ""

/-- The verbatim text of a node, or its name if it has no text. -/
def source (node : Node) : String :=
  if node.text = "" then node.name else node.text

end Node

end Recast
