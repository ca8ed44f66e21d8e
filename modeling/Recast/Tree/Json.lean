import Recast.Tree.Node
import Recast.TypeRef.Json

/-!
# Tree dumps

How a declaration tree is written as JSON and read from it. The kind of a node is always written;
every other field is left out when it has its usual value, and may be left out when reading. A dump
of several units is a list of nodes; `Node.unitsOfJson?` reads such a list, or a single node.
-/

set_option autoImplicit false

namespace Recast

/-! ## Hints -/

namespace TypeHint

/-- The fields of a variable's hint. -/
def variableLayout : Json.Layout where
  names := ["name", "type"]
  mayEndEarly := false

/-- The fields of a field's hint. -/
def fieldLayout : Json.Layout where
  names := ["name", "field_type", "declaring_type"]
  mayEndEarly := false

/-- The fields of a property's hint. -/
def propertyLayout : Json.Layout where
  names := ["name", "property_type", "declaring_type"]
  mayEndEarly := false

/-- A hint as JSON. -/
def toJson : TypeHint → Json
  | .typeDefinition type => .obj [("type_definition", type.toJson)]
  | .typeReference type => .obj [("type_reference", type.toJson)]
  | .inferredType type => .obj [("inferred_type", type.toJson)]
  | .ofVariable name type =>
    .obj [("variable", .obj [("name", .str name), ("type", type.toJson)])]
  | .ofField name type declaring =>
    .obj [("field", .obj [("name", .str name), ("field_type", type.toJson),
      ("declaring_type", declaring.toJson)])]
  | .ofProperty name type declaring =>
    .obj [("property", .obj [("name", .str name), ("property_type", type.toJson),
      ("declaring_type", declaring.toJson)])]

/-- The hint with some tag. -/
def ofTagged? : String × Json → Option TypeHint
  | ("type_definition", j) => (TypeRef.ofJson? j).map .typeDefinition
  | ("type_reference", j) => (TypeRef.ofJson? j).map .typeReference
  | ("inferred_type", j) => (TypeRef.ofJson? j).map .inferredType
  | ("variable", j) => do
    let fields ← variableLayout.fields? j
    let name ← fields.required "name" Json.text?
    let type ← fields.required "type" TypeRef.ofJson?
    return .ofVariable name type
  | ("field", j) => do
    let fields ← fieldLayout.fields? j
    let name ← fields.required "name" Json.text?
    let type ← fields.required "field_type" TypeRef.ofJson?
    let declaring ← fields.required "declaring_type" TypeRef.ofJson?
    return .ofField name type declaring
  | ("property", j) => do
    let fields ← propertyLayout.fields? j
    let name ← fields.required "name" Json.text?
    let type ← fields.required "property_type" TypeRef.ofJson?
    let declaring ← fields.required "declaring_type" TypeRef.ofJson?
    return .ofProperty name type declaring
  | _ => none

/-- A hint from JSON. -/
def ofJson? (j : Json) : Option TypeHint :=
  j.tagged?.bind ofTagged?

end TypeHint

/-! ## Nodes -/

namespace Node

/-- The fields of a node. -/
def layout : Json.Layout where
  names := ["kind", "role", "name", "text", "modifiers", "attributes", "annotations", "children"]
  mayEndEarly := true

/-- A role, if it is not the usual one. -/
def roleIf (role : Role) : Option Json :=
  if role = .plain then none else some (.str role.label)

mutual

/-- A node as JSON. -/
def toJson : Node → Json
  | ⟨kind, role, name, text, modifiers, attributes, hints, children⟩ =>
    .obj ([("kind", .str kind.label)]
      ++ Json.fieldIf "role" (roleIf role)
      ++ Json.fieldIf "name" (Json.textIf name)
      ++ Json.fieldIf "text" (Json.textIf text)
      ++ Json.fieldIf "modifiers" (Json.arrayIf (modifiers.map fun m => .str m.label))
      ++ Json.fieldIf "attributes" (Json.arrayIf (attributes.map .str))
      ++ Json.fieldIf "annotations" (Json.arrayIf (hints.map TypeHint.toJson))
      ++ Json.fieldIf "children" (Json.arrayIf (toJsonAll children)))

/-- Several nodes as JSON. -/
def toJsonAll : List Node → List Json
  | [] => []
  | node :: nodes => node.toJson :: toJsonAll nodes

end

/-- A node whose children are nested at most `fuel` deep. -/
def ofJsonWithin : Nat → Json → Option Node
  | 0, _ => none
  | fuel + 1, j => do
    let fields ← layout.fields? j
    let kind ← fields.withDefault "kind" (Json.choice? Kind.label Kind.all) .other
    let role ← fields.withDefault "role" (Json.choice? Role.label Role.all) .plain
    let name ← fields.withDefault "name" Json.text? ""
    let text ← fields.withDefault "text" Json.text? ""
    let modifiers ← fields.withDefault "modifiers"
      (Json.list? (Json.choice? Modifier.label Modifier.all)) []
    let attributes ← fields.withDefault "attributes" (Json.list? Json.text?) []
    let hints ← fields.withDefault "annotations" (Json.list? TypeHint.ofJson?) []
    let children ← fields.withDefault "children" (Json.list? (ofJsonWithin fuel)) []
    return { kind, role, name, text, modifiers, attributes, hints, children }

/-- A node from JSON. -/
def ofJson? (j : Json) : Option Node :=
  ofJsonWithin j.depth j

/-- The units of a dump: a list of nodes if it reads as one, and else a single node. -/
def unitsOfJson? (j : Json) : Option (List Node) :=
  if j.isUsable then
    (Json.list? ofJson? j).or ((ofJson? j).map fun node => [node])
  else none

end Node

end Recast
