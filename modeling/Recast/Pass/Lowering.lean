import Recast.Program.Basic

/-!
# Lowering accessors

How a property or indexer becomes methods: `getName` from its getter and `setName` from its setter.
The body of an accessor moves across unchanged. A method is private if its accessor is private or
internal, and public otherwise; an accessor without a visibility of its own takes that of its
property. What is static or overrides stays so.
-/

set_option autoImplicit false

namespace Recast.Property

/-- The type of a method that yields nothing. -/
def voidType : String :=
  "void"

/-- The flags of the method made from an accessor. -/
def loweredFlags (owner accessor : Flags) : Flags :=
  let restricted :=
    if 0 < accessor.visibilityCount then accessor.isRestricted else owner.isRestricted
  { isPublic := !restricted
    isPrivate := restricted
    isOverride := owner.isOverride
    isStatic := owner.isStatic }

/-- The method made from an accessor. -/
def lowered (owner : Entity) (name type : String) (parameters : List Parameter)
    (accessor : Accessor) : Routine where
  entity := { name, type, flags := loweredFlags owner.flags accessor.entity.flags }
  parameters := parameters
  body := accessor.body

/-- The methods made from the accessors of a property, the getter first. -/
def methodsWith (property : Property) (getterParameters setterParameters : List Parameter) :
    List Routine :=
  let entity := property.entity
  (property.getter.map (lowered entity ("get" ++ entity.name) entity.type getterParameters)).toList
    ++ (property.setter.map
      (lowered entity ("set" ++ entity.name) voidType setterParameters)).toList

/-- The methods of an indexer: both take the parameters of the indexer. -/
def indexerMethods (indexer : Property) : List Routine :=
  indexer.methodsWith indexer.parameters indexer.parameters

/-- The methods of a property: the getter takes nothing, the setter the new value. -/
def propertyMethods (property : Property) : List Routine :=
  property.methodsWith [] [{ name := "value", type := property.entity.type }]

end Recast.Property
