import Recast.Json.Record
import Recast.Program.Basic

/-!
# Programs as JSON

Every field of a program is written, an absent one as `null`. Reading is less strict: flags and
optional fields may be left out. The members of a class are open records: the name, type, flags and
attributes of a member share its object with the fields of its own sort, and such an object is never
given by position. A type declaration is a class or an enumeration with a tag among its fields, or
in front of them when it is given by position; it is held as a whole before it is decoded.
-/

set_option autoImplicit false

namespace Recast

/-! ## Flags and entities -/

namespace Flags

/-- The fields of flags. -/
def layout : Json.Layout where
  names := ["is_public", "is_private", "is_internal", "is_override", "is_static"]
  mayEndEarly := true

/-- Flags as the members of an object. -/
def toMembers (flags : Flags) : List (String × Json) :=
  [("is_public", .bool flags.isPublic), ("is_private", .bool flags.isPrivate),
    ("is_internal", .bool flags.isInternal), ("is_override", .bool flags.isOverride),
    ("is_static", .bool flags.isStatic)]

/-- Flags as JSON. -/
def toJson (flags : Flags) : Json :=
  .obj flags.toMembers

/-- Flags from the fields of a record. -/
def ofFields? (fields : Json.Fields) : Option Flags := do
  let isPublic ← fields.withDefault "is_public" Json.bool? false
  let isPrivate ← fields.withDefault "is_private" Json.bool? false
  let isInternal ← fields.withDefault "is_internal" Json.bool? false
  let isOverride ← fields.withDefault "is_override" Json.bool? false
  let isStatic ← fields.withDefault "is_static" Json.bool? false
  return { isPublic, isPrivate, isInternal, isOverride, isStatic }

/-- Flags from JSON. -/
def ofJson? (j : Json) : Option Flags :=
  (layout.fields? j).bind ofFields?

end Flags

namespace Entity

/-- The fields of an entity, those of its flags included. -/
def names : List String :=
  ["name", "type", "attributes"] ++ Flags.layout.names

/-- An entity as the members of an object. -/
def toMembers (entity : Entity) : List (String × Json) :=
  [("name", .str entity.name), ("type", .str entity.type)] ++ entity.flags.toMembers
    ++ [("attributes", .str entity.attributes)]

/-- An entity from the fields of a record. -/
def ofFields? (fields : Json.Fields) : Option Entity := do
  let name ← fields.required "name" Json.text?
  let type ← fields.required "type" Json.text?
  let flags ← Flags.ofFields? fields
  let attributes ← fields.required "attributes" Json.text?
  return { name, type, flags, attributes }

end Entity

/-! ## Members -/

namespace Parameter

/-- The fields of a parameter. -/
def layout : Json.Layout where
  names := ["name", "type", "option_value"]
  mayEndEarly := false

/-- A parameter as JSON. -/
def toJson (parameter : Parameter) : Json :=
  .obj [("name", .str parameter.name), ("type", .str parameter.type),
    ("option_value", Json.optional parameter.defaultValue)]

/-- A parameter from JSON. -/
def ofJson? (j : Json) : Option Parameter := do
  let fields ← layout.fields? j
  let name ← fields.required "name" Json.text?
  let type ← fields.required "type" Json.text?
  let defaultValue ← fields.optional "option_value" Json.text?
  return { name, type, defaultValue }

end Parameter

namespace Invocation

/-- The fields of an invocation. -/
def layout : Json.Layout where
  names := ["target", "member", "type"]
  mayEndEarly := false

/-- An invocation as JSON. -/
def toJson (invocation : Invocation) : Json :=
  .obj [("target", .str invocation.target), ("member", .str invocation.member),
    ("type", .str invocation.type)]

/-- An invocation from JSON. -/
def ofJson? (j : Json) : Option Invocation := do
  let fields ← layout.fields? j
  let target ← fields.required "target" Json.text?
  let member ← fields.required "member" Json.text?
  let type ← fields.required "type" Json.text?
  return { target, member, type }

end Invocation

namespace Body

/-- The fields of a body. -/
def layout : Json.Layout where
  names := ["text", "invokes"]
  mayEndEarly := false

/-- A body as JSON. -/
def toJson (body : Body) : Json :=
  .obj [("text", .str body.text), ("invokes", .arr (body.invocations.map Invocation.toJson))]

/-- A body from JSON. -/
def ofJson? (j : Json) : Option Body := do
  let fields ← layout.fields? j
  let text ← fields.required "text" Json.text?
  let invocations ← fields.required "invokes" (Json.list? Invocation.ofJson?)
  return { text, invocations }

end Body

namespace Accessor

/-- An accessor as JSON. -/
def toJson (accessor : Accessor) : Json :=
  .obj (accessor.entity.toMembers ++ [("body", accessor.body.toJson)])

/-- An accessor from JSON. -/
def ofJson? (j : Json) : Option Accessor := do
  let fields ← Json.openFields? ["body"] Entity.names j
  let body ← fields.required "body" Body.ofJson?
  let entity ← Entity.ofFields? fields
  return { entity, body }

/-- An accessor that may be absent, as JSON. -/
def toJsonOptional : Option Accessor → Json
  | some accessor => accessor.toJson
  | none => .null

end Accessor

namespace FieldDecl

/-- A field as JSON. -/
def toJson (field : FieldDecl) : Json :=
  .obj (field.entity.toMembers ++ [("init", Json.optional field.init)])

/-- A field from JSON. -/
def ofJson? (j : Json) : Option FieldDecl := do
  let fields ← Json.openFields? ["init"] Entity.names j
  let init ← fields.optional "init" Json.text?
  let entity ← Entity.ofFields? fields
  return { entity, init }

end FieldDecl

namespace Property

/-- A property as JSON. -/
def toJson (property : Property) : Json :=
  .obj (property.entity.toMembers
    ++ [("parameters", .arr (property.parameters.map Parameter.toJson)),
      ("getter", Accessor.toJsonOptional property.getter),
      ("setter", Accessor.toJsonOptional property.setter)])

/-- A property from JSON. -/
def ofJson? (j : Json) : Option Property := do
  let fields ← Json.openFields? ["parameters", "getter", "setter"] Entity.names j
  let parameters ← fields.required "parameters" (Json.list? Parameter.ofJson?)
  let getter ← fields.optional "getter" Accessor.ofJson?
  let setter ← fields.optional "setter" Accessor.ofJson?
  let entity ← Entity.ofFields? fields
  return { entity, parameters, getter, setter }

end Property

namespace Routine

/-- A routine as JSON. -/
def toJson (routine : Routine) : Json :=
  .obj (routine.entity.toMembers
    ++ [("parameters", .arr (routine.parameters.map Parameter.toJson)),
      ("body", routine.body.toJson)])

/-- A routine from JSON. -/
def ofJson? (j : Json) : Option Routine := do
  let fields ← Json.openFields? ["parameters", "body"] Entity.names j
  let parameters ← fields.required "parameters" (Json.list? Parameter.ofJson?)
  let body ← fields.required "body" Body.ofJson?
  let entity ← Entity.ofFields? fields
  return { entity, parameters, body }

end Routine

/-! ## Types -/

namespace ClassDecl

/-- The fields of a class. -/
def layout : Json.Layout where
  names := ["name", "bases", "fields", "properties", "constructors", "methods", "indexers"]
  mayEndEarly := false

/-- A class as the members of an object. -/
def toMembers (decl : ClassDecl) : List (String × Json) :=
  [("name", .str decl.name), ("bases", Json.strings decl.bases),
    ("fields", .arr (decl.fields.map FieldDecl.toJson)),
    ("properties", .arr (decl.properties.map Property.toJson)),
    ("constructors", .arr (decl.constructors.map Routine.toJson)),
    ("methods", .arr (decl.methods.map Routine.toJson)),
    ("indexers", .arr (decl.indexers.map Property.toJson))]

/-- A class as JSON. -/
def toJson (decl : ClassDecl) : Json :=
  .obj decl.toMembers

/-- A class from JSON. -/
def ofJson? (j : Json) : Option ClassDecl := do
  let fields ← layout.fields? j
  let name ← fields.required "name" Json.text?
  let bases ← fields.required "bases" (Json.list? Json.text?)
  let fieldDecls ← fields.required "fields" (Json.list? FieldDecl.ofJson?)
  let properties ← fields.required "properties" (Json.list? Property.ofJson?)
  let constructors ← fields.required "constructors" (Json.list? Routine.ofJson?)
  let methods ← fields.required "methods" (Json.list? Routine.ofJson?)
  let indexers ← fields.required "indexers" (Json.list? Property.ofJson?)
  return { name, bases, fields := fieldDecls, properties, constructors, methods, indexers }

end ClassDecl

namespace EnumMember

/-- The fields of a member of an enumeration. -/
def layout : Json.Layout where
  names := ["name", "init"]
  mayEndEarly := false

/-- A member of an enumeration as JSON. -/
def toJson (member : EnumMember) : Json :=
  .obj [("name", .str member.name), ("init", Json.optional member.init)]

/-- A member of an enumeration from JSON. -/
def ofJson? (j : Json) : Option EnumMember := do
  let fields ← layout.fields? j
  let name ← fields.required "name" Json.text?
  let init ← fields.optional "init" Json.text?
  return { name, init }

end EnumMember

namespace EnumDecl

/-- The fields of an enumeration. -/
def layout : Json.Layout where
  names := ["name", "bases", "members"]
  mayEndEarly := false

/-- An enumeration as the members of an object. -/
def toMembers (decl : EnumDecl) : List (String × Json) :=
  [("name", .str decl.name), ("bases", Json.strings decl.bases),
    ("members", .arr (decl.members.map EnumMember.toJson))]

/-- An enumeration as JSON. -/
def toJson (decl : EnumDecl) : Json :=
  .obj decl.toMembers

/-- An enumeration from JSON. -/
def ofJson? (j : Json) : Option EnumDecl := do
  let fields ← layout.fields? j
  let name ← fields.required "name" Json.text?
  let bases ← fields.required "bases" (Json.list? Json.text?)
  let members ← fields.required "members" (Json.list? EnumMember.ofJson?)
  return { name, bases, members }

end EnumDecl

namespace TypeDecl

/-- The key of the tag that tells classes from enumerations. -/
def tagKey : String :=
  "kind"

/-- A type as JSON. -/
def toJson : TypeDecl → Json
  | .ofClass decl => .obj ((tagKey, .str "class") :: decl.toMembers)
  | .ofEnum decl => .obj ((tagKey, .str "enum") :: decl.toMembers)

/-- A type with some tag. -/
def ofTagged? (tag : String) (content : Json) : Option TypeDecl :=
  if tag = "class" then (ClassDecl.ofJson? content).map .ofClass
  else if tag = "enum" then (EnumDecl.ofJson? content).map .ofEnum
  else none

/-- A type from JSON: exactly one tag among its fields, or a tag in front of them. -/
def ofJson? (j : Json) : Option TypeDecl :=
  if j.isUsable then
    match j with
    | .obj members =>
      match members.filter fun member => member.1 = tagKey with
      | [(_, .str tag)] => ofTagged? tag (.obj (members.filter fun member => member.1 ≠ tagKey))
      | _ => none
    | .arr (.str tag :: items) => ofTagged? tag (.arr items)
    | _ => none
  else none

end TypeDecl

namespace Namespace

/-- The fields of a namespace. -/
def layout : Json.Layout where
  names := ["name", "types"]
  mayEndEarly := false

/-- A namespace as JSON. -/
def toJson (space : Namespace) : Json :=
  .obj [("name", Json.optional space.name), ("types", .arr (space.types.map TypeDecl.toJson))]

/-- A namespace from JSON. -/
def ofJson? (j : Json) : Option Namespace := do
  let fields ← layout.fields? j
  let name ← fields.optional "name" Json.text?
  let types ← fields.required "types" (Json.list? TypeDecl.ofJson?)
  return { name, types }

end Namespace

end Recast
