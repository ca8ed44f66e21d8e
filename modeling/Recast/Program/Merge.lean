import Recast.Log.Event
import Recast.Program.Basic

/-!
# Merging fragments

Fragments with the same name become one namespace; the absent name is a name of its own. Namespaces
and types keep the place of their first occurrence. A type declared again takes the place of the
earlier one, and the clash is recorded as a conflict.
-/

set_option autoImplicit false

namespace Recast

/-- A type that was declared again in a namespace. -/
structure Conflict where
  space : Option String
  type : String
deriving DecidableEq, Repr

/-- The report of a conflict. -/
def Conflict.event (conflict : Conflict) : Event :=
  .typeReplaced (conflict.space.getD "") conflict.type

/-- The namespaces of merged fragments, and the conflicts on the way. -/
structure Merged where
  namespaces : List Namespace := []
  conflicts : List Conflict := []
deriving DecidableEq, Repr

namespace Namespace

/-- Whether a namespace declares a type of some name. -/
def declares (space : Namespace) (name : String) : Bool :=
  space.types.any fun type => type.name = name

/-- Puts a type into a namespace: in the place of the one with its name, or at the end. -/
def putType (space : Namespace) (type : TypeDecl) : Namespace :=
  if space.declares type.name then
    { space with types := space.types.map fun old => if old.name = type.name then type else old }
  else { space with types := space.types ++ [type] }

/-- Puts several types into a namespace, one after the other. -/
def putTypes (space : Namespace) (types : List TypeDecl) : Namespace :=
  types.foldl putType space

/-- The conflicts of putting several types into a namespace. -/
def conflictsOf (space : Namespace) : List TypeDecl → List Conflict
  | [] => []
  | type :: types =>
    let later := (space.putType type).conflictsOf types
    if space.declares type.name then { space := space.name, type := type.name } :: later else later

end Namespace

namespace Merged

/-- The namespace with some name. -/
def get? (merged : Merged) (name : Option String) : Option Namespace :=
  merged.namespaces.find? fun space => space.name = name

/-- Puts a namespace in the place of the one with its name, or at the end. -/
def put (spaces : List Namespace) (space : Namespace) : List Namespace :=
  if spaces.any fun old => old.name = space.name then
    spaces.map fun old => if old.name = space.name then space else old
  else spaces ++ [space]

/-- Adds one fragment. -/
def add (merged : Merged) (fragment : Namespace) : Merged :=
  let space := (merged.get? fragment.name).getD { name := fragment.name }
  { namespaces := put merged.namespaces (space.putTypes fragment.types)
    conflicts := merged.conflicts ++ space.conflictsOf fragment.types }

/-- The namespaces without the first one of some name. -/
def without (merged : Merged) (name : Option String) : Merged :=
  { merged with namespaces := merged.namespaces.eraseP fun space => space.name = name }

/-- The reports of all conflicts. -/
def events (merged : Merged) : List Event :=
  merged.conflicts.map Conflict.event

end Merged

/-- Merges fragments. -/
def merge (fragments : List Namespace) : Merged :=
  fragments.foldl Merged.add {}

end Recast
