import Recast.Json.Basic

/-!
# Decoding records

Decoders take a JSON value to an `Option`. A record is given by the names of its fields; a value
spells a record either by name, as an object, or by position, as an array (`Layout.fields?`). Keys
that name no field are passed over, whatever stands under them; a field named twice is refused.

An open record (`openFields?`) shares its object with another record. Its own fields decode where
they stand; all the other members are held until the object has ended, so each of them has to be
usable, also those that name no field.
-/

set_option autoImplicit false

namespace Recast.Json

/-! ## Scalars, lists and choices -/

/-- A text. -/
def text? : Json → Option String
  | .str s => some s
  | _ => none

/-- A truth value. -/
def bool? : Json → Option Bool
  | .bool b => some b
  | _ => none

/-- A list, each item by the same decoder. -/
def list? {α : Type} (decode : Json → Option α) : Json → Option (List α)
  | .arr items => items.mapM decode
  | _ => none

/-- The word of a value that is one of several words: the word itself, or an object with the word
as its only key and nothing under it. -/
def word? : Json → Option String
  | .str s => some s
  | .obj [(s, .null)] => some s
  | _ => none

/-- One of several choices by its word. -/
def choice? {α : Type} (label : α → String) (choices : List α) (j : Json) : Option α := do
  let word ← j.word?
  choices.find? fun a => label a == word

/-- A tag and what it holds: the only member of an object. -/
def tagged? : Json → Option (String × Json)
  | .obj [member] => some member
  | _ => none

/-! ## Records -/

/-- The values given for the fields of a record. -/
abbrev Fields := List (String × Json)

namespace Fields

variable {α : Type}

/-- A field that has to be given. -/
def required (fields : Fields) (name : String) (decode : Json → Option α) : Option α := do
  decode (← fields.lookup name)

/-- A field that may be absent or `null`. -/
def optional (fields : Fields) (name : String) (decode : Json → Option α) : Option (Option α) :=
  match fields.lookup name with
  | none => some none
  | some .null => some none
  | some j => (decode j).map some

/-- A field with a value for its absence. -/
def withDefault (fields : Fields) (name : String) (decode : Json → Option α) (absent : α) :
    Option α :=
  match fields.lookup name with
  | none => some absent
  | some j => decode j

end Fields

/-- The members of an object that name a field, if none of them is named twice. -/
def known? (names : List String) (members : List (String × Json)) : Option Fields :=
  let known := members.filter fun member => names.contains member.1
  if (known.map (·.1)).Nodup then some known else none

/-- The fields of a record in order, and whether the last ones may be left out by position. -/
structure Layout where
  names : List String
  mayEndEarly : Bool

/-- The fields of a record, given by name or by position. -/
def Layout.fields? (layout : Layout) : Json → Option Fields
  | .obj members => known? layout.names members
  | .arr items =>
    if items.length = layout.names.length
        || (layout.mayEndEarly && items.length < layout.names.length) then
      some (layout.names.zip items)
    else none
  | _ => none

/-- The fields of a record that shares its object with another one. -/
def openFields? (own shared : List String) : Json → Option Fields
  | .obj members =>
    if members.all fun member => own.contains member.1 || member.2.isUsable then
      known? (own ++ shared) members
    else none
  | _ => none

end Recast.Json
