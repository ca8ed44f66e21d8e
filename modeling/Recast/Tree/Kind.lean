/-!
# Kinds, roles and modifiers

The vocabulary of a declaration tree. Each word has a label, which is how a dump spells it, and
each vocabulary has a list of all its words in the order in which they are usually given.
-/

set_option autoImplicit false

namespace Recast

/-- What a node of a tree is. -/
inductive Kind where
  | compilationUnit
  | namespaceDecl
  | classDecl
  | structDecl
  | interfaceDecl
  | enumDecl
  | fieldDecl
  | variableDecl
  | propertyDecl
  | indexerDecl
  | methodDecl
  | constructorDecl
  | accessorDecl
  | parameterDecl
  | enumMember
  | block
  | memberReference
  | indexerExpression
  | typeReference
  | other
deriving DecidableEq, Repr

namespace Kind

/-- All kinds. -/
def all : List Kind :=
  [.compilationUnit, .namespaceDecl, .classDecl, .structDecl, .interfaceDecl, .enumDecl,
    .fieldDecl, .variableDecl, .propertyDecl, .indexerDecl, .methodDecl, .constructorDecl,
    .accessorDecl, .parameterDecl, .enumMember, .block, .memberReference, .indexerExpression,
    .typeReference, .other]

/-- How a dump spells a kind. -/
def label : Kind → String
  | .compilationUnit => "compilation_unit"
  | .namespaceDecl => "namespace"
  | .classDecl => "class"
  | .structDecl => "struct"
  | .interfaceDecl => "interface"
  | .enumDecl => "enum"
  | .fieldDecl => "field"
  | .variableDecl => "variable"
  | .propertyDecl => "property"
  | .indexerDecl => "indexer"
  | .methodDecl => "method"
  | .constructorDecl => "constructor"
  | .accessorDecl => "accessor"
  | .parameterDecl => "parameter"
  | .enumMember => "enum_member"
  | .block => "block"
  | .memberReference => "member_reference"
  | .indexerExpression => "indexer_expression"
  | .typeReference => "type_reference"
  | .other => "other"

/-- How a message names a kind: its label in separate words, and `node` for the rest. -/
def display : Kind → String
  | .compilationUnit => "compilation unit"
  | .enumMember => "enum member"
  | .memberReference => "member reference"
  | .indexerExpression => "indexer expression"
  | .typeReference => "type reference"
  | .other => "node"
  | kind => kind.label

/-- Whether a kind declares a type that is built as a class. -/
def isClassLike : Kind → Bool
  | .classDecl => true
  | .structDecl => true
  | .interfaceDecl => true
  | _ => false

/-- Whether a kind declares a type. -/
def isTypeDeclaration (kind : Kind) : Bool :=
  kind.isClassLike || kind = .enumDecl

end Kind

/-- What a node is to its parent. -/
inductive Role where
  | plain
  | declaredType
  | baseType
  | binding
  | parameter
  | body
  | getter
  | setter
  | target
  | member
deriving DecidableEq, Repr

namespace Role

/-- All roles. -/
def all : List Role :=
  [.plain, .declaredType, .baseType, .binding, .parameter, .body, .getter, .setter, .target,
    .member]

/-- How a dump spells a role. -/
def label : Role → String
  | .plain => "none"
  | .declaredType => "type"
  | .baseType => "base_type"
  | .binding => "variable"
  | .parameter => "parameter"
  | .body => "body"
  | .getter => "getter"
  | .setter => "setter"
  | .target => "target"
  | .member => "member"

end Role

/-- A modifier of a declaration. -/
inductive Modifier where
  | isPublic
  | isPrivate
  | isInternal
  | isProtected
  | isStatic
  | isOverride
deriving DecidableEq, Repr

namespace Modifier

/-- All modifiers. -/
def all : List Modifier :=
  [.isPublic, .isPrivate, .isInternal, .isProtected, .isStatic, .isOverride]

/-- How a dump spells a modifier. -/
def label : Modifier → String
  | .isPublic => "public"
  | .isPrivate => "private"
  | .isInternal => "internal"
  | .isProtected => "protected"
  | .isStatic => "static"
  | .isOverride => "override"

end Modifier

end Recast
