import Recast.Log.Traced
import Recast.Pass.Attribute
import Recast.Pass.Lowering
import Recast.Pass.Settings

/-!
# Passes

A pass changes the classes of a namespace, each by itself, and leaves the rest as it is. The first
two passes remove generated fields and constructors that check a licence; each does nothing if the
text that it looks for is empty. The next two turn indexers and properties into methods. The last
one changes nothing and refuses a class that still has indexers or properties.
-/

set_option autoImplicit false

namespace Recast

/-- A pass over a namespace. -/
inductive Pass where
  | removeGenerated (label : String)
  | removeLicensed (marker : String)
  | lowerIndexers
  | lowerProperties
  | rename
deriving DecidableEq, Repr

/-- Why a pass fails: a class has not been lowered. -/
structure PassFault where
  pass : String
  owner : String
deriving DecidableEq, Repr

/-- The message of a fault. -/
def PassFault.message (fault : PassFault) : String :=
  "pass `" ++ fault.pass ++ "` requires lowered accessors, but class `" ++ fault.owner
    ++ "` still has properties or indexers"

namespace Pass

/-- The name of a pass. -/
def name : Pass → String
  | .removeGenerated _ => "RemoveCompilerGeneratedField"
  | .removeLicensed _ => "RemoveLicenseMethod"
  | .lowerIndexers => "MakeIndexerToMember"
  | .lowerProperties => "MakePropertyToMember"
  | .rename => "RenameTransform"

/-- Whether a field carries the attribute of generated fields. -/
def isGenerated (label : String) (field : FieldDecl) : Bool :=
  let wanted := Attribute.bareName label.toList
  !wanted.isEmpty && (Attribute.names field.entity.attributes.toList).contains wanted

/-- Whether one text occurs in another. -/
def occursIn (part : List Char) : List Char → Bool
  | [] => part.isEmpty
  | c :: s => part.isPrefixOf (c :: s) || occursIn part s

/-- Whether the body of a constructor holds the marker. -/
def isLicensed (marker : String) (routine : Routine) : Bool :=
  !marker.isEmpty && occursIn marker.toList routine.body.text.toList

/-- What a pass makes of a class. -/
def onClass : Pass → ClassDecl → ClassDecl
  | .removeGenerated label, decl =>
    { decl with fields := decl.fields.filter fun field => !isGenerated label field }
  | .removeLicensed marker, decl =>
    { decl with
      constructors := decl.constructors.filter fun routine => !isLicensed marker routine }
  | .lowerIndexers, decl =>
    { decl with
      indexers := []
      methods := decl.methods ++ decl.indexers.flatMap Property.indexerMethods }
  | .lowerProperties, decl =>
    { decl with
      properties := []
      methods := decl.methods ++ decl.properties.flatMap Property.propertyMethods }
  | .rename, decl => decl

/-- An event that carries a count, unless the count is zero. -/
def counted (event : Nat → Event) (count : Nat) : List Event :=
  if count = 0 then [] else [event count]

/-- What a pass reports of a class. -/
def classEvents : Pass → ClassDecl → List Event
  | .removeGenerated label, decl =>
    counted (.fieldsRemoved decl.name) (decl.fields.countP (isGenerated label))
  | .removeLicensed marker, decl =>
    counted (.constructorsRemoved decl.name) (decl.constructors.countP (isLicensed marker))
  | .lowerIndexers, decl => counted (.indexersLowered decl.name) decl.indexers.length
  | .lowerProperties, decl => counted (.propertiesLowered decl.name) decl.properties.length
  | .rename, _ => []

/-- The fault of a pass on a namespace, if there is one. -/
def fault? : Pass → Namespace → Option PassFault
  | .rename, space =>
    (space.classes.find? ClassDecl.hasAccessorMembers).map fun decl =>
      { pass := Pass.rename.name, owner := decl.name }
  | _, _ => none

/-- Runs a pass on a namespace. -/
def run (pass : Pass) (space : Namespace) : Traced PassFault Namespace :=
  match pass.fault? space with
  | some fault => Traced.fail fault
  | none => do
    Traced.reportAll (space.classes.flatMap pass.classEvents)
    return space.mapClasses pass.onClass

/-- Runs several passes one after the other, each with a report that it begins. -/
def runAll : List Pass → Namespace → Traced PassFault Namespace
  | [], space => pure space
  | pass :: passes, space => do
    Traced.report (.passStarted pass.name space.displayName)
    runAll passes (← pass.run space)

/-- Runs something on namespaces in order, up to the first fault. -/
def onEach (run : Namespace → Traced PassFault Namespace) :
    List Namespace → Traced PassFault (List Namespace)
  | [] => pure []
  | space :: spaces => do return (← run space) :: (← onEach run spaces)

/-- The usual passes in their usual order. -/
def standard (settings : Settings) : List Pass :=
  [.removeGenerated settings.generatedAttribute, .removeLicensed settings.licenseMarker,
    .lowerIndexers, .lowerProperties, .rename]

/-- The usual passes on a namespace. -/
def pipeline (settings : Settings) (space : Namespace) : Traced PassFault Namespace :=
  runAll (standard settings) space

end Pass

end Recast
