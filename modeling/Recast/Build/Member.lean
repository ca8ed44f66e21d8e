import Recast.Build.Fault
import Recast.Code.Assignment
import Recast.Log.Traced
import Recast.Program.Basic
import Recast.Tree.Resolution

/-!
# Building members and types

How the nodes below a type declaration become the members of a class or enumeration. The members of
a class are its direct children of the five kinds of members, each kind in child order; types nested
inside it are no members. A name with an initial value is cut at its first assignment sign, the
default value of a parameter is what follows the last one.
-/

set_option autoImplicit false

namespace Recast.Build

/-! ## Parts of members -/

/-- The flags that the modifiers of a node set. -/
def flags (node : Node) : Flags where
  isPublic := node.has .isPublic
  isPrivate := node.has .isPrivate
  isInternal := node.has .isInternal
  isOverride := node.has .isOverride
  isStatic := node.has .isStatic

/-- What a node has in common with every member. -/
def entity (node : Node) : Entity where
  name := node.name
  type := node.textAs .declaredType
  flags := flags node
  attributes := String.join node.attributes

/-- A warning if the flags of a node name more than one visibility. -/
def visibilityEvents (node : Node) : List Event :=
  if (flags node).isAmbiguous then [.conflictingVisibility node.name node.kind] else []

/-- The entity of a node, with its warning. -/
def tracedEntity (node : Node) : Traced BuildFault Entity := do
  Traced.reportAll (visibilityEvents node)
  return entity node

/-- A parameter. -/
def parameter (node : Node) : Parameter where
  name := node.name
  type := node.textAs .declaredType
  defaultValue := (Code.cutLast node.text).2

/-- The parameters of a node. -/
def parameters (node : Node) : List Parameter :=
  (node.childrenAs .parameter).map parameter

mutual

/-- The member references strictly below a node, each one after those below it. -/
def references : Node → List Node
  | ⟨_, _, _, _, _, _, _, children⟩ => referencesIn children

/-- The member references at and below some nodes, each one after those below it. -/
def referencesIn : List Node → List Node
  | [] => []
  | node :: nodes =>
    references node ++ (if node.kind = .memberReference then [node] else []) ++ referencesIn nodes

end

/-- The access that a member reference makes. -/
def invocation (node : Node) : Invocation where
  target := node.textAs .target
  member := node.name
  type := TypeRef.textOf node.targetType?

/-- The body of a node; empty if it has none. -/
def body (node : Node) : Body :=
  match node.childAs? .body with
  | some block => { text := block.text, invocations := (references block).map invocation }
  | none => {}

/-! ## Members -/

/-- An accessor. -/
def accessor (node : Node) : Traced BuildFault Accessor := do
  return { entity := ← tracedEntity node, body := body node }

/-- The accessor of a node with some role, if there is one. -/
def accessorAs (node : Node) (role : Role) : Traced BuildFault (Option Accessor) :=
  match node.childAs? role with
  | some child => some <$> accessor child
  | none => pure none

/-- A property or indexer. -/
def property (node : Node) : Traced BuildFault Property := do
  let entity ← tracedEntity node
  let getter ← accessorAs node .getter
  let setter ← accessorAs node .setter
  return { entity, parameters := parameters node, getter, setter }

/-- A method or constructor. -/
def routine (node : Node) : Traced BuildFault Routine := do
  return { entity := ← tracedEntity node, parameters := parameters node, body := body node }

/-- A field: exactly one variable, which gives its name. -/
def field (node : Node) : Traced BuildFault FieldDecl := do
  let entity ← tracedEntity node
  match (node.childrenAs .binding).map fun binding => Code.cutFirst binding.source with
  | [(name, init)] => return { entity := { entity with name }, init }
  | bindings => Traced.fail (.fieldBindings (bindings.map (·.1)))

/-- A member of a class. -/
inductive Member where
  | ofField (field : FieldDecl)
  | ofProperty (property : Property)
  | ofIndexer (indexer : Property)
  | ofMethod (method : Routine)
  | ofConstructor (constructor : Routine)

/-- The member that a child of a class is, if it is one. -/
def member? (node : Node) : Option (Traced BuildFault Member) :=
  match node.kind with
  | .fieldDecl => some (.ofField <$> field node)
  | .propertyDecl => some (.ofProperty <$> property node)
  | .indexerDecl => some (.ofIndexer <$> property node)
  | .methodDecl => some (.ofMethod <$> routine node)
  | .constructorDecl => some (.ofConstructor <$> routine node)
  | _ => none

/-- The members among some nodes, in order. -/
def members : List Node → Traced BuildFault (List Member)
  | [] => pure []
  | node :: nodes =>
    match member? node with
    | some built => do return (← built) :: (← members nodes)
    | none => members nodes

/-! ## Types -/

/-- A class from its members. -/
def classOf (name : String) (bases : List String) (members : List Member) : ClassDecl where
  name := name
  bases := bases
  fields := members.filterMap fun | .ofField field => some field | _ => none
  properties := members.filterMap fun | .ofProperty property => some property | _ => none
  constructors := members.filterMap fun | .ofConstructor routine => some routine | _ => none
  methods := members.filterMap fun | .ofMethod method => some method | _ => none
  indexers := members.filterMap fun | .ofIndexer indexer => some indexer | _ => none

/-- The resolved base types of a class. -/
def classBases (node : Node) : List String :=
  (node.childrenAs .baseType).map fun base => TypeRef.textOf base.type?

/-- The report of a class that has been built. -/
def classEvent (decl : ClassDecl) : Event :=
  .classBuilt decl.name decl.fields.length decl.properties.length decl.indexers.length
    decl.methods.length decl.constructors.length

/-- A class. -/
def classDecl (node : Node) : Traced BuildFault ClassDecl := do
  let decl := classOf node.name (classBases node) (← members node.children)
  Traced.report (classEvent decl)
  return decl

/-- A member of an enumeration. -/
def enumMember (node : Node) : EnumMember :=
  let (name, init) := Code.cutFirst node.source
  { name, init }

/-- An enumeration; its base types are taken verbatim. -/
def enumDecl (node : Node) : EnumDecl where
  name := node.name
  bases := (node.childrenAs .baseType).map Node.text
  members := (node.children.filter fun child => child.kind = .enumMember).map enumMember

/-- A type. -/
def typeDecl (node : Node) : Traced BuildFault TypeDecl :=
  if node.kind = .enumDecl then pure (.ofEnum (enumDecl node))
  else .ofClass <$> classDecl node

end Recast.Build
