import Recast.Json.Basic
import Recast.Tree.Kind

/-!
# Events

What the library reports while it works: facts for the log, each with a level, a message and the
values that go with it. Events are data; whoever runs the library decides what becomes of them.
-/

set_option autoImplicit false

namespace Recast

/-- How important an event is. -/
inductive Level where
  | debug
  | info
  | warn
deriving DecidableEq, Repr

/-- The word for a level. -/
def Level.label : Level → String
  | .debug => "debug"
  | .info => "info"
  | .warn => "warn"

/-- Something worth reporting. -/
inductive Event where
  | conflictingVisibility (member : String) (kind : Kind)
  | classBuilt (name : String) (fields properties indexers methods constructors : Nat)
  | fragmentBuilt (space : String) (types : Nat)
  | unitsBuilt (units fragments jobs : Nat)
  | typeReplaced (space type : String)
  | fragmentsMerged (namespaces conflicts : Nat)
  | typeDuplicated (space type : String)
  | passStarted (pass space : String)
  | fieldsRemoved (owner : String) (count : Nat)
  | constructorsRemoved (owner : String) (count : Nat)
  | indexersLowered (owner : String) (count : Nat)
  | propertiesLowered (owner : String) (count : Nat)
deriving DecidableEq, Repr

namespace Event

/-- The level of an event. -/
def level : Event → Level
  | .conflictingVisibility .. => .warn
  | .unitsBuilt .. => .info
  | .typeReplaced .. => .warn
  | .fragmentsMerged .. => .info
  | .typeDuplicated .. => .warn
  | _ => .debug

/-- The message of an event. -/
def message : Event → String
  | .conflictingVisibility .. =>
    "member carries conflicting visibility modifiers; keeping all of them"
  | .classBuilt .. => "built class"
  | .fragmentBuilt .. => "built namespace fragment"
  | .unitsBuilt .. => "built syntax units"
  | .typeReplaced .. => "type declared by more than one fragment; keeping the last"
  | .fragmentsMerged .. => "merged fragments"
  | .typeDuplicated .. => "duplicate type"
  | .passStarted .. => "running pass"
  | .fieldsRemoved .. => "removed compiler-generated fields"
  | .constructorsRemoved .. => "removed license-check constructors"
  | .indexersLowered .. => "lowering indexers"
  | .propertiesLowered .. => "lowering properties"

/-- The values that go with an event. -/
def values : Event → List (String × Json)
  | .conflictingVisibility member kind =>
    [("member", .str member), ("kind", .str kind.display)]
  | .classBuilt name fields properties indexers methods constructors =>
    [("class", .str name), ("fields", Json.nat fields), ("properties", Json.nat properties),
      ("indexers", Json.nat indexers), ("methods", Json.nat methods),
      ("constructors", Json.nat constructors)]
  | .fragmentBuilt space types => [("namespace", .str space), ("types", Json.nat types)]
  | .unitsBuilt units fragments jobs =>
    [("units", Json.nat units), ("fragments", Json.nat fragments), ("jobs", Json.nat jobs)]
  | .typeReplaced space type => [("namespace", .str space), ("type_name", .str type)]
  | .fragmentsMerged namespaces conflicts =>
    [("namespaces", Json.nat namespaces), ("conflicts", Json.nat conflicts)]
  | .typeDuplicated space type => [("namespace", .str space), ("type_name", .str type)]
  | .passStarted pass space => [("pass", .str pass), ("namespace", .str space)]
  | .fieldsRemoved owner count => [("class", .str owner), ("removed", Json.nat count)]
  | .constructorsRemoved owner count => [("class", .str owner), ("removed", Json.nat count)]
  | .indexersLowered owner count => [("class", .str owner), ("count", Json.nat count)]
  | .propertiesLowered owner count => [("class", .str owner), ("count", Json.nat count)]

end Event

end Recast
