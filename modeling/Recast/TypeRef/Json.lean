import Recast.Json.Record
import Recast.TypeRef.Basic

/-!
# Type references as JSON

The name of a type reference is always written; the other fields are left out when they are absent
or empty. All fields may be left out when reading. The depth of a value bounds how deep the type
references in it can be nested, so `TypeRef.ofJson?` needs no other bound.
-/

set_option autoImplicit false

namespace Recast.TypeRef

/-- The fields of a type reference. -/
def layout : Json.Layout where
  names := ["namespace", "name", "type_args", "element", "by_ref"]
  mayEndEarly := true

mutual

/-- A type reference as JSON. -/
def toJson : TypeRef → Json
  | ⟨qualifier, name, args, element, passing⟩ =>
    .obj (Json.fieldIf "namespace" (qualifier.map .str) ++ [("name", .str name)]
      ++ Json.fieldIf "type_args" (Json.arrayIf (toJsonAll args))
      ++ Json.fieldIf "element" (toJsonElement element)
      ++ Json.fieldIf "by_ref" (passing.map fun p => .str p.label))

/-- Several type references as JSON. -/
def toJsonAll : List TypeRef → List Json
  | [] => []
  | t :: ts => t.toJson :: toJsonAll ts

/-- An element type, if there is one. -/
def toJsonElement : Option TypeRef → Option Json
  | some t => some t.toJson
  | none => none

end

/-- A type reference nested at most `fuel` deep. -/
def ofJsonWithin : Nat → Json → Option TypeRef
  | 0, _ => none
  | fuel + 1, j => do
    let fields ← layout.fields? j
    let qualifier ← fields.optional "namespace" Json.text?
    let name ← fields.withDefault "name" Json.text? ""
    let args ← fields.withDefault "type_args" (Json.list? (ofJsonWithin fuel)) []
    let element ← fields.optional "element" (ofJsonWithin fuel)
    let passing ← fields.optional "by_ref" (Json.choice? Passing.label Passing.all)
    return { qualifier, name, args, element, passing }

/-- A type reference from JSON. -/
def ofJson? (j : Json) : Option TypeRef :=
  ofJsonWithin j.depth j

end Recast.TypeRef
