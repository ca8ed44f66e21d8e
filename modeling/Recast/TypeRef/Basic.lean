/-!
# Type references

A reference to a type as the type hints of a tree give it, and its text. An array has an element
type; what else such a reference holds does not show in its text. The sixteen built-in types of
the namespace `System` have keywords. A name is cut at the first grave accent, behind which the
number of type parameters stands. Passing by reference shows at the outside only.
-/

set_option autoImplicit false

namespace Recast

/-- How an argument is passed by reference. -/
inductive Passing where
  | ref
  | out
deriving DecidableEq, Repr

/-- The keyword of a way to pass an argument. -/
def Passing.label : Passing → String
  | .ref => "ref"
  | .out => "out"

/-- All ways to pass an argument by reference. -/
def Passing.all : List Passing :=
  [.ref, .out]

/-- A reference to a type. -/
structure TypeRef where
  qualifier : Option String := none
  name : String := ""
  args : List TypeRef := []
  element : Option TypeRef := none
  passing : Option Passing := none
deriving Repr, Inhabited, BEq

namespace TypeRef

/-- The array of some type. -/
def arrayOf (element : TypeRef) : TypeRef :=
  { element := some element }

/-- Whether a reference is an array. -/
def isArray (t : TypeRef) : Bool :=
  t.element.isSome

/-- The built-in types by their names, with their keywords. -/
def keywords : List (String × String) :=
  [("Void", "void"), ("Object", "object"), ("String", "string"), ("Boolean", "bool"),
    ("Char", "char"), ("SByte", "sbyte"), ("Byte", "byte"), ("Int16", "short"),
    ("UInt16", "ushort"), ("Int32", "int"), ("UInt32", "uint"), ("Int64", "long"),
    ("UInt64", "ulong"), ("Single", "float"), ("Double", "double"), ("Decimal", "decimal")]

/-- The keyword of a built-in type: it stands in `System` and has no arguments. -/
def keyword? (qualifier : Option String) (name : String) (args : List TypeRef) : Option String :=
  if qualifier = some "System" && args.isEmpty then keywords.lookup name else none

/-- A qualifier with its point; nothing if it is absent or empty. -/
def qualifierText : Option String → String
  | none => ""
  | some q => if q = "" then "" else q ++ "."

/-- A name up to its first grave accent. -/
def bareName (name : String) : String :=
  String.ofList (name.toList.takeWhile (· ≠ '`'))

/-- Type arguments in their brackets; nothing if there are none. -/
def argumentsText : List String → String
  | [] => ""
  | args => "<" ++ ", ".intercalate args ++ ">"

mutual

/-- The text of a type, however it is passed. -/
def plainText : TypeRef → String
  | ⟨_, _, _, some element, _⟩ => element.plainText ++ "[]"
  | ⟨qualifier, name, args, none, _⟩ =>
    match keyword? qualifier name args with
    | some keyword => keyword
    | none => qualifierText qualifier ++ bareName name ++ argumentsText (plainTexts args)

/-- The texts of several types. -/
def plainTexts : List TypeRef → List String
  | [] => []
  | t :: ts => t.plainText :: plainTexts ts

end

/-- The text of a type. -/
def text (t : TypeRef) : String :=
  match t.passing with
  | some passing => passing.label ++ " " ++ t.plainText
  | none => t.plainText

/-- What is written for a type that could not be found. -/
def unresolvedText : String :=
  "NULL TYPE"

/-- The text of a type, if there is one. -/
def textOf : Option TypeRef → String
  | some t => t.text
  | none => unresolvedText

end TypeRef

end Recast
