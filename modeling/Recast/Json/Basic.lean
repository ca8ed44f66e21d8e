/-!
# JSON values

A JSON value as the readers of this library see it. The members of an object are kept in the order
of the text, repeated keys included, because a record may refuse a repeated key.

One constructor is not a value of the format. `Json.unusable` stands for a stretch of well-formed
text that denotes nothing this library can hold: a number too large for a double, a string with an
unpaired surrogate escape, an object with such a key, or a container nested too deeply. Such a
stretch may be passed over, under a key that nobody asks for, and it decodes to nothing. So a reader
never has to know beforehand which parts of a text will be wanted.
-/

set_option autoImplicit false

namespace Recast

/-- The number `mantissa * 10 ^ exponent`. -/
structure Decimal where
  mantissa : Int
  exponent : Int
deriving DecidableEq, Repr

/-- A JSON value, or a stretch of text that can only be passed over. -/
inductive Json where
  | null
  | bool (value : Bool)
  | num (value : Decimal)
  | str (value : String)
  | arr (items : List Json)
  | obj (members : List (String × Json))
  | unusable
deriving Repr, Inhabited

namespace Json

/-- A whole number. -/
def nat (n : Nat) : Json :=
  .num ⟨n, 0⟩

/-- A text, or `null` in its absence. -/
def optional : Option String → Json
  | some s => .str s
  | none => .null

/-- A list of texts. -/
def strings (values : List String) : Json :=
  .arr (values.map .str)

/-- A member that is left out when there is nothing to say. -/
def fieldIf (name : String) : Option Json → List (String × Json)
  | some value => [(name, value)]
  | none => []

/-- An array, if it has any items. -/
def arrayIf : List Json → Option Json
  | [] => none
  | items => some (.arr items)

/-- A text, if it is not empty. -/
def textIf (s : String) : Option Json :=
  if s = "" then none else some (.str s)

mutual

/-- The number of containers around the most deeply nested place; `0` for a scalar. -/
def depth : Json → Nat
  | .arr items => depthItems items + 1
  | .obj members => depthMembers members + 1
  | _ => 0

/-- The greatest depth among the items of an array. -/
def depthItems : List Json → Nat
  | [] => 0
  | item :: items => max item.depth (depthItems items)

/-- The greatest depth among the values of an object. -/
def depthMembers : List (String × Json) → Nat
  | [] => 0
  | (_, value) :: members => max value.depth (depthMembers members)

end

mutual

/-- Whether a value holds no unusable part. -/
def isUsable : Json → Bool
  | .unusable => false
  | .arr items => usableItems items
  | .obj members => usableMembers members
  | _ => true

/-- Whether all items of an array are usable. -/
def usableItems : List Json → Bool
  | [] => true
  | item :: items => item.isUsable && usableItems items

/-- Whether all values of an object are usable. -/
def usableMembers : List (String × Json) → Bool
  | [] => true
  | (_, value) :: members => value.isUsable && usableMembers members

end

end Json

end Recast
