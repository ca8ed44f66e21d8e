import Recast.Json.Record

/-!
# Settings of the passes

The two texts that the passes look for: the marker of a constructor that checks a licence, and the
attribute of a field that was generated. Both have usual values, and both may be left out when the
settings are read.
-/

set_option autoImplicit false

namespace Recast

/-- What the passes look for. -/
structure Settings where
  licenseMarker : String := "LicenseManager"
  generatedAttribute : String := "CompilerGenerated"
deriving DecidableEq, Repr

namespace Settings

/-- The fields of settings. -/
def layout : Json.Layout where
  names := ["license_marker", "compiler_generated_attribute"]
  mayEndEarly := true

/-- Settings as JSON. -/
def toJson (settings : Settings) : Json :=
  .obj [("license_marker", .str settings.licenseMarker),
    ("compiler_generated_attribute", .str settings.generatedAttribute)]

/-- Settings from JSON. -/
def ofJson? (j : Json) : Option Settings := do
  let usual : Settings := {}
  let fields ← layout.fields? j
  let licenseMarker ← fields.withDefault "license_marker" Json.text? usual.licenseMarker
  let generatedAttribute ←
    fields.withDefault "compiler_generated_attribute" Json.text? usual.generatedAttribute
  return { licenseMarker, generatedAttribute }

end Settings

end Recast
