import Recast.Program.Basic
import Recast.Text.Blank

/-!
# Listings

A program as text: classes in order, then enumerations. Lines inside a type are indented by four
blanks; bodies stand verbatim on lines of their own. A body that holds blanks only is not printed,
and its head ends in a semicolon. Properties and indexers are printed with their accessors, so that
any program has a listing, lowered or not.
-/

set_option autoImplicit false

namespace Recast.Listing

/-! ## Lines and heads -/

/-- A line at the outside. -/
def line (text : String) : String :=
  text ++ "\n"

/-- A line inside a type. -/
def innerLine (text : String) : String :=
  "    " ++ text ++ "\n"

/-- The keywords of flags, each with a blank behind it. -/
def keywords (flags : Flags) : String :=
  (if flags.isStatic then "static " else "") ++ (if flags.isPublic then "public " else "")
    ++ (if flags.isPrivate then "private " else "")
    ++ (if flags.isInternal then "internal " else "")
    ++ (if flags.isOverride then "override " else "")

/-- A name with its value, if it has one. -/
def withValue (name : String) : Option String → String
  | some value => name ++ " = " ++ value
  | none => name

/-- A parameter. -/
def parameter (p : Parameter) : String :=
  withValue (p.type ++ " " ++ p.name) p.defaultValue

/-- Parameters between commas. -/
def parameters (ps : List Parameter) : String :=
  ", ".intercalate (ps.map parameter)

/-- The head of a member: its keywords, its type if it has one, and what it declares. -/
def signature (entity : Entity) (declarator : String) : String :=
  keywords entity.flags ++ (if entity.type = "" then "" else entity.type ++ " ") ++ declarator

/-- The base types of a type behind its name. -/
def bases : List String → String
  | [] => ""
  | bs => " : " ++ ", ".intercalate bs

/-! ## Members -/

/-- The end of a line, unless the text ends one itself. -/
def lineEnd (text : String) : String :=
  if text.toList.getLast? = some '\n' then "" else "\n"

/-- A head with its body. -/
def withBody (head body : String) : String :=
  if Text.isAllBlank body then innerLine (head ++ ";")
  else innerLine head ++ body ++ lineEnd body

/-- A field. -/
def field (f : FieldDecl) : String :=
  innerLine (signature f.entity (withValue f.entity.name f.init) ++ ";")

/-- A method or constructor. -/
def routine (r : Routine) : String :=
  withBody (signature r.entity (r.entity.name ++ "(" ++ parameters r.parameters ++ ")")) r.body.text

/-- An accessor under its label, if there is one. -/
def accessor (label : String) : Option Accessor → String
  | some a => withBody (keywords a.entity.flags ++ label ++ ":") a.body.text
  | none => ""

/-- The accessors of a property, the getter first. -/
def accessors (p : Property) : String :=
  accessor "getter" p.getter ++ accessor "setter" p.setter

/-- A property. -/
def property (p : Property) : String :=
  innerLine (signature p.entity p.entity.name) ++ accessors p

/-- An indexer. -/
def indexer (p : Property) : String :=
  innerLine (signature p.entity (p.entity.name ++ "[" ++ parameters p.parameters ++ "]"))
    ++ accessors p

/-! ## Types and namespaces -/

/-- A class. -/
def classDecl (decl : ClassDecl) : String :=
  line ("class " ++ decl.name ++ bases decl.bases ++ " \x7b")
    ++ innerLine "// fields" ++ String.join (decl.fields.map field)
    ++ innerLine "// properties" ++ String.join (decl.properties.map property)
    ++ innerLine "// indexers" ++ String.join (decl.indexers.map indexer)
    ++ innerLine "// constructors" ++ String.join (decl.constructors.map routine)
    ++ innerLine "// methods" ++ String.join (decl.methods.map routine)
    ++ line ("\x7d; // class " ++ decl.name)

/-- A member of an enumeration. -/
def enumMember (member : EnumMember) : String :=
  innerLine (withValue member.name member.init)

/-- An enumeration. -/
def enumDecl (decl : EnumDecl) : String :=
  line ("enum " ++ decl.name ++ bases decl.bases ++ " \x7b")
    ++ String.join (decl.members.map enumMember)
    ++ line ("\x7d; // enum " ++ decl.name)

/-- A type. -/
def typeDecl : TypeDecl → String
  | .ofClass decl => classDecl decl
  | .ofEnum decl => enumDecl decl

/-- The first line of a namespace. -/
def header : Option String → String
  | some name => line ("namespace " ++ name ++ " \x7b")
  | none => line "namespace \x7b"

/-- The last line of a namespace. -/
def footer : Option String → String
  | some name => line ("\x7d // namespace " ++ name)
  | none => line "\x7d // namespace"

/-- A namespace. -/
def space (s : Namespace) : String :=
  header s.name ++ String.join (s.classes.map classDecl) ++ String.join (s.enums.map enumDecl)
    ++ footer s.name

/-- The text of one type by itself. -/
structure Piece where
  name : String
  text : String
deriving DecidableEq, Repr

/-- The texts of all types of a namespace, classes first. -/
def pieces (s : Namespace) : List Piece :=
  (s.types.filter (fun type => !type.isEnum) ++ s.types.filter TypeDecl.isEnum).map fun type =>
    { name := type.name, text := typeDecl type }

end Recast.Listing
