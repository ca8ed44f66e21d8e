import Recast.Tree.Node

/-!
# Resolving the type of a node

A node can carry several hints that tell its type. They are asked in a fixed order of
precedence, and of several hints of one sort the first one counts. A node without any of them
that indexes into something has the element type of what it indexes.

`Node.resolve?` gives a type together with the source that told it. `Node.targetType?` gives the
type that declares the member which a node accesses.
-/

set_option autoImplicit false

namespace Recast

/-- Where the type of a node was found. -/
inductive TypeSource where
  | declaredType
  | typeReference
  | inferredType
  | variableType
  | fieldType
  | propertyType
  | indexedElement
deriving DecidableEq, Repr

/-- The source that a hint is, and the type that it tells. -/
def TypeHint.told : TypeHint → TypeSource × TypeRef
  | .typeDefinition type => (.declaredType, type)
  | .typeReference type => (.typeReference, type)
  | .inferredType type => (.inferredType, type)
  | .ofVariable _ type => (.variableType, type)
  | .ofField _ type _ => (.fieldType, type)
  | .ofProperty _ type _ => (.propertyType, type)

namespace TypeSource

/-- All sources, the one that counts most first. -/
def precedence : List TypeSource :=
  [.declaredType, .typeReference, .inferredType, .variableType, .fieldType, .propertyType,
    .indexedElement]

/-- The type that the first hint from some source tells. -/
def told? (source : TypeSource) (hints : List TypeHint) : Option TypeRef :=
  hints.findSome? fun hint =>
    if hint.told.1 = source then some hint.told.2 else none

/-- What the hints tell, by precedence. -/
def best? (hints : List TypeHint) : Option (TypeSource × TypeRef) :=
  precedence.findSome? fun source => (source.told? hints).map (source, ·)

end TypeSource

namespace Node

mutual

/-- The type of a node with its source. -/
def resolve? : Node → Option (TypeSource × TypeRef)
  | ⟨kind, _, _, _, _, _, hints, children⟩ =>
    match TypeSource.best? hints with
    | some found => some found
    | none =>
      if kind = .indexerExpression then
        ((resolveTarget? children).bind TypeRef.element).map (.indexedElement, ·)
      else none

/-- The type of the first target among some nodes. -/
def resolveTarget? : List Node → Option TypeRef
  | [] => none
  | node :: nodes =>
    if node.role = .target then node.resolve?.map (·.2) else resolveTarget? nodes

end

/-- The type of a node. -/
def type? (node : Node) : Option TypeRef :=
  node.resolve?.map (·.2)

/-- The element type of what a node indexes. -/
def indexedElement? (node : Node) : Option TypeRef :=
  if node.kind = .indexerExpression then (resolveTarget? node.children).bind TypeRef.element
  else none

/-- The type that one source tells of a node. -/
def typeFrom? (node : Node) : TypeSource → Option TypeRef
  | .indexedElement => node.indexedElement?
  | source => source.told? node.hints

/-- The type that declares the property which some hints tell. -/
def propertyOwner? (hints : List TypeHint) : Option TypeRef :=
  hints.findSome? fun
    | .ofProperty _ _ declaring => some declaring
    | _ => none

/-- The type that declares the field which some hints tell. -/
def fieldOwner? (hints : List TypeHint) : Option TypeRef :=
  hints.findSome? fun
    | .ofField _ _ declaring => some declaring
    | _ => none

/-- The type that declares the member which a node accesses: the owner of the property, else of the
field, else the type of the target. -/
def targetType? (node : Node) : Option TypeRef :=
  ((propertyOwner? node.hints).or (fieldOwner? node.hints)).or
    (resolveTarget? node.children)

end Node

end Recast
