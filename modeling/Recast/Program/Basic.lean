/-!
# Programs

A program as plain data: namespaces with the types declared in them, classes with their members
grouped by sort, and the bodies of what can be executed. Nothing is shared, so a part of a program
is replaced by building the rest around a new part.

Methods and constructors have the same shape (`Routine`), and so have properties and indexers
(`Property`). The visibility of a member is three independent flags, because a declaration can carry
several of them and keeps them all.
-/

set_option autoImplicit false

namespace Recast

/-- The flags of a declaration. -/
structure Flags where
  isPublic : Bool := false
  isPrivate : Bool := false
  isInternal : Bool := false
  isOverride : Bool := false
  isStatic : Bool := false
deriving DecidableEq, Repr

namespace Flags

/-- How many of the three visibilities are set. -/
def visibilityCount (flags : Flags) : Nat :=
  [flags.isPublic, flags.isPrivate, flags.isInternal].count true

/-- Whether more than one visibility is set. -/
def isAmbiguous (flags : Flags) : Bool :=
  1 < flags.visibilityCount

/-- Whether some visibility below public is set. -/
def isRestricted (flags : Flags) : Bool :=
  flags.isPrivate || flags.isInternal

end Flags

/-- What all members have in common. The type is empty for a member that has none. -/
structure Entity where
  name : String := ""
  type : String := ""
  flags : Flags := {}
  attributes : String := ""
deriving DecidableEq, Repr

/-- A parameter, with the text of its default value. -/
structure Parameter where
  name : String
  type : String
  defaultValue : Option String := none
deriving DecidableEq, Repr

/-- An access to a member in a body: the text of the target, the member, and the text of the type
that declares it. -/
structure Invocation where
  target : String
  member : String
  type : String
deriving DecidableEq, Repr

/-- A body: its verbatim text and the member accesses in it. -/
structure Body where
  text : String := ""
  invocations : List Invocation := []
deriving DecidableEq, Repr

/-- A getter or setter. -/
structure Accessor where
  entity : Entity := {}
  body : Body := {}
deriving DecidableEq, Repr

/-- A field, with the text of its initial value. -/
structure FieldDecl where
  entity : Entity := {}
  init : Option String := none
deriving DecidableEq, Repr

/-- A property or an indexer. -/
structure Property where
  entity : Entity := {}
  parameters : List Parameter := []
  getter : Option Accessor := none
  setter : Option Accessor := none
deriving DecidableEq, Repr

/-- A method or a constructor. -/
structure Routine where
  entity : Entity := {}
  parameters : List Parameter := []
  body : Body := {}
deriving DecidableEq, Repr

/-- A class, structure or interface. -/
structure ClassDecl where
  name : String := ""
  bases : List String := []
  fields : List FieldDecl := []
  properties : List Property := []
  constructors : List Routine := []
  methods : List Routine := []
  indexers : List Property := []
deriving DecidableEq, Repr

/-- A member of an enumeration, with the text of its value. -/
structure EnumMember where
  name : String
  init : Option String := none
deriving DecidableEq, Repr

/-- An enumeration. -/
structure EnumDecl where
  name : String := ""
  bases : List String := []
  members : List EnumMember := []
deriving DecidableEq, Repr

/-- A type declaration. -/
inductive TypeDecl where
  | ofClass (decl : ClassDecl)
  | ofEnum (decl : EnumDecl)
deriving DecidableEq, Repr

/-- A namespace; the one without a name holds the types declared outside of any. -/
structure Namespace where
  name : Option String := none
  types : List TypeDecl := []
deriving DecidableEq, Repr

namespace ClassDecl

/-- Whether a class still has members that consist of accessors. -/
def hasAccessorMembers (decl : ClassDecl) : Bool :=
  !decl.properties.isEmpty || !decl.indexers.isEmpty

/-- The first method with some name. -/
def method? (decl : ClassDecl) (name : String) : Option Routine :=
  decl.methods.find? fun method => method.entity.name = name

/-- The first field with some name. -/
def field? (decl : ClassDecl) (name : String) : Option FieldDecl :=
  decl.fields.find? fun field => field.entity.name = name

end ClassDecl

namespace TypeDecl

/-- The name of a type. -/
def name : TypeDecl → String
  | .ofClass decl => decl.name
  | .ofEnum decl => decl.name

/-- The base types of a type. -/
def bases : TypeDecl → List String
  | .ofClass decl => decl.bases
  | .ofEnum decl => decl.bases

/-- Whether a type is an enumeration. -/
def isEnum : TypeDecl → Bool
  | .ofClass _ => false
  | .ofEnum _ => true

/-- The class that a type is. -/
def class? : TypeDecl → Option ClassDecl
  | .ofClass decl => some decl
  | .ofEnum _ => none

/-- The enumeration that a type is. -/
def enum? : TypeDecl → Option EnumDecl
  | .ofClass _ => none
  | .ofEnum decl => some decl

/-- Changes a class and leaves an enumeration as it is. -/
def mapClass (f : ClassDecl → ClassDecl) : TypeDecl → TypeDecl
  | .ofClass decl => .ofClass (f decl)
  | .ofEnum decl => .ofEnum decl

end TypeDecl

namespace Namespace

/-- The name of a namespace, empty if it has none. -/
def displayName (space : Namespace) : String :=
  space.name.getD ""

/-- The classes, in order. -/
def classes (space : Namespace) : List ClassDecl :=
  space.types.filterMap TypeDecl.class?

/-- The enumerations, in order. -/
def enums (space : Namespace) : List EnumDecl :=
  space.types.filterMap TypeDecl.enum?

/-- The first type with some name. -/
def find? (space : Namespace) (name : String) : Option TypeDecl :=
  space.types.find? fun type => type.name = name

/-- The first class with some name. -/
def class? (space : Namespace) (name : String) : Option ClassDecl :=
  space.classes.find? fun decl => decl.name = name

/-- Changes every class. -/
def mapClasses (f : ClassDecl → ClassDecl) (space : Namespace) : Namespace :=
  { space with types := space.types.map (TypeDecl.mapClass f) }

end Namespace

end Recast
