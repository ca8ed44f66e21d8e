import Recast.Listing
import Recast.Proofs.Pipeline

/-!
# The text of a body in a listing

A body can stand in a method, in a constructor, or in an accessor of a property or indexer. Its
place in a namespace is given by indices (`BodyPlace`), and `Namespace.withBodyText` puts another
text there and changes nothing else.

A listing passes a body on if everything in front of the body and everything behind it is the same
for all texts (`PassesOn`). A single head with its body does so (`passesOn_withBody`), and so does
whatever is printed around it, up to the whole namespace (`listing_of_bodyAt`): the text of the body
begins on a line of its own and stands there as it is, and a text of blanks is left out and its head
closed with a semicolon.
-/

set_option autoImplicit false

namespace Recast

/-! ## Places of bodies -/

/-- A body with another text. -/
def Body.withText (text : String) (body : Body) : Body :=
  { body with text }

/-- An accessor with another text in its body. -/
def Accessor.withText (text : String) (accessor : Accessor) : Accessor :=
  { accessor with body := accessor.body.withText text }

/-- A method or constructor with another text in its body. -/
def Routine.withText (text : String) (routine : Routine) : Routine :=
  { routine with body := routine.body.withText text }

/-- The getter or the setter of a property. -/
def Property.accessorAt? (property : Property) : AccessorSort → Option Accessor
  | .getter => property.getter
  | .setter => property.setter

/-- A property with another text in the body of an accessor. -/
def Property.withText (property : Property) (text : String) : AccessorSort → Property
  | .getter => { property with getter := property.getter.map (Accessor.withText text) }
  | .setter => { property with setter := property.setter.map (Accessor.withText text) }

/-- Where a body stands in a class: in which member of its sort, and in which accessor of it. -/
inductive MemberPlace where
  | inProperty (index : Nat) (sort : AccessorSort)
  | inIndexer (index : Nat) (sort : AccessorSort)
  | inConstructor (index : Nat)
  | inMethod (index : Nat)
deriving DecidableEq, Repr

namespace ClassDecl

/-- The body at a place, if there is one. -/
def bodyAt? (decl : ClassDecl) : MemberPlace → Option Body
  | .inProperty index sort =>
    (decl.properties[index]?.bind fun property => property.accessorAt? sort).map Accessor.body
  | .inIndexer index sort =>
    (decl.indexers[index]?.bind fun indexer => indexer.accessorAt? sort).map Accessor.body
  | .inConstructor index => decl.constructors[index]?.map Routine.body
  | .inMethod index => decl.methods[index]?.map Routine.body

/-- A class with another text in the body at a place. -/
def withBodyText (place : MemberPlace) (text : String) (decl : ClassDecl) : ClassDecl :=
  match place with
  | .inProperty index sort =>
    { decl with properties := decl.properties.modify index fun property =>
        property.withText text sort }
  | .inIndexer index sort =>
    { decl with indexers := decl.indexers.modify index fun indexer => indexer.withText text sort }
  | .inConstructor index =>
    { decl with constructors := decl.constructors.modify index (Routine.withText text) }
  | .inMethod index => { decl with methods := decl.methods.modify index (Routine.withText text) }

end ClassDecl

/-- Where a body stands in a namespace: in which type, and where in it. -/
structure BodyPlace where
  type : Nat
  member : MemberPlace
deriving DecidableEq, Repr

namespace Namespace

/-- The body at a place, if there is one. -/
def bodyAt? (space : Namespace) (place : BodyPlace) : Option Body :=
  (space.types[place.type]?.bind TypeDecl.class?).bind fun decl => decl.bodyAt? place.member

/-- A namespace with another text in the body at a place. -/
def withBodyText (space : Namespace) (place : BodyPlace) (text : String) : Namespace :=
  { space with types := space.types.modify place.type fun type =>
      type.mapClass (ClassDecl.withBodyText place.member text) }

end Namespace

/-! ## The text that a body has -/

/-- A change that leaves the element at its place alone leaves the list alone. -/
theorem modify_of_getElem? {α : Type} {l : List α} {i : Nat} {x : α} (hx : l[i]? = some x)
    {f : α → α} (hf : f x = x) : l.modify i f = l := by
  apply List.ext_getElem?
  intro j
  rw [List.getElem?_modify]
  by_cases hj : i = j
  · subst hj
    simp [hx, hf]
  · simp [hj]

/-- A body that is looked up in the accessors of some members is that of an accessor of one of
them. -/
theorem exists_accessorAt? {members : List Property} {index : Nat} {sort : AccessorSort}
    {body : Body}
    (h : (members[index]?.bind fun member => member.accessorAt? sort).map Accessor.body
      = some body) :
    ∃ member accessor, members[index]? = some member ∧ member.accessorAt? sort = some accessor ∧
      accessor.body = body := by
  obtain ⟨accessor, haccessor, hbody⟩ := Option.map_eq_some_iff.1 h
  obtain ⟨member, hmember, haccessor⟩ := Option.bind_eq_some_iff.1 haccessor
  exact ⟨member, accessor, hmember, haccessor, hbody⟩

theorem Property.withText_self {property : Property} {sort : AccessorSort} {accessor : Accessor}
    (h : property.accessorAt? sort = some accessor) :
    property.withText accessor.body.text sort = property := by
  cases property
  cases sort with
  | getter =>
    cases h
    rfl
  | setter =>
    cases h
    rfl

theorem ClassDecl.withBodyText_self {decl : ClassDecl} {place : MemberPlace} {body : Body}
    (h : decl.bodyAt? place = some body) : decl.withBodyText place body.text = decl := by
  cases place with
  | inProperty index sort =>
    obtain ⟨property, accessor, hproperty, haccessor, rfl⟩ := exists_accessorAt? h
    rw [withBodyText, modify_of_getElem? hproperty (Property.withText_self haccessor)]
  | inIndexer index sort =>
    obtain ⟨indexer, accessor, hindexer, haccessor, rfl⟩ := exists_accessorAt? h
    rw [withBodyText, modify_of_getElem? hindexer (Property.withText_self haccessor)]
  | inConstructor index =>
    obtain ⟨routine, hroutine, rfl⟩ := Option.map_eq_some_iff.1 h
    rw [withBodyText, modify_of_getElem? hroutine rfl]
  | inMethod index =>
    obtain ⟨routine, hroutine, rfl⟩ := Option.map_eq_some_iff.1 h
    rw [withBodyText, modify_of_getElem? hroutine rfl]

/-- A body stands in a class, and the class among the types. -/
theorem Namespace.bodyAt?_eq_some_iff {space : Namespace} {place : BodyPlace} {body : Body} :
    space.bodyAt? place = some body ↔
      ∃ decl, space.types[place.type]? = some (.ofClass decl) ∧
        decl.bodyAt? place.member = some body := by
  rw [bodyAt?, Option.bind_eq_some_iff]
  constructor
  · rintro ⟨decl, hdecl, hbody⟩
    obtain ⟨type, htype, hclass⟩ := Option.bind_eq_some_iff.1 hdecl
    cases type with
    | ofClass found =>
      cases hclass
      exact ⟨decl, htype, hbody⟩
    | ofEnum found => cases hclass
  · rintro ⟨decl, htype, hbody⟩
    exact ⟨decl, by rw [htype]; rfl, hbody⟩

/-- Putting the text of a body in its place changes nothing. -/
theorem Namespace.withBodyText_self {space : Namespace} {place : BodyPlace} {body : Body}
    (h : space.bodyAt? place = some body) : space.withBodyText place body.text = space := by
  obtain ⟨decl, htype, hbody⟩ := bodyAt?_eq_some_iff.1 h
  have hdecl : TypeDecl.mapClass (ClassDecl.withBodyText place.member body.text) (.ofClass decl)
      = .ofClass decl := congrArg TypeDecl.ofClass (ClassDecl.withBodyText_self hbody)
  rw [withBodyText, modify_of_getElem? htype hdecl]

namespace Listing

/-! ## Listings that pass a body on -/

/-- Everything around a body in a listing: the text of the body stands behind `front` and a line
feed and in front of `back`, with a line feed of its own at the end. A text of blanks is left out,
and a semicolon stands in its place. -/
structure Surrounds (front back : String) (listing : String → String) : Prop where
  printed : ∀ text, ¬ (∀ c ∈ text.toList, Text.isBlank c = true) →
    listing text
      = front ++ "\n" ++ text ++ (if text.toList.getLast? = some '\n' then "" else "\n") ++ back
  left_out : ∀ text, (∀ c ∈ text.toList, Text.isBlank c = true) →
    listing text = front ++ ";\n" ++ back

/-- A listing of something with a body passes the text of the body on. -/
def PassesOn (listing : String → String) : Prop :=
  ∃ front back, Surrounds front back listing

/-- The head stands in front, and nothing stands behind the body. -/
theorem passesOn_withBody (head : String) : PassesOn (withBody head) := by
  refine ⟨"    " ++ head, "", ?_, ?_⟩
  · intro text htext
    have hblank : ¬ Text.isAllBlank text = true := fun h => htext (List.all_eq_true.1 h)
    rw [withBody, if_neg hblank, innerLine, lineEnd, String.append_empty]
  · intro text htext
    have hblank : Text.isAllBlank text = true := List.all_eq_true.2 htext
    rw [withBody, if_pos hblank, innerLine, String.append_empty, ← String.append_assoc,
      String.append_assoc, String.append_assoc]
    rfl

variable {listing : String → String}

theorem PassesOn.behind (h : PassesOn listing) (before : String) :
    PassesOn fun text => before ++ listing text := by
  obtain ⟨front, back, hprinted, hleft⟩ := h
  refine ⟨before ++ front, back, ?_, ?_⟩
  · intro text htext
    simp only [hprinted text htext, String.append_assoc]
  · intro text htext
    simp only [hleft text htext, String.append_assoc]

theorem PassesOn.before (h : PassesOn listing) (behind : String) :
    PassesOn fun text => listing text ++ behind := by
  obtain ⟨front, back, hprinted, hleft⟩ := h
  refine ⟨front, back ++ behind, ?_, ?_⟩
  · intro text htext
    simp only [hprinted text htext, String.append_assoc]
  · intro text htext
    simp only [hleft text htext, String.append_assoc]

/-- A list with the body in one of its elements: all the others are printed as they are. -/
theorem passesOn_join {α : Type} (print : α → String) (put : String → α → α) {l : List α} {i : Nat}
    {x : α} (hx : l[i]? = some x) (h : PassesOn fun text => print (put text x)) :
    PassesOn fun text => String.join ((l.modify i (put text)).map print) := by
  obtain ⟨hi, rfl⟩ := List.getElem?_eq_some_iff.1 hx
  have hsplit : ∀ text, String.join ((l.modify i (put text)).map print)
      = String.join ((l.take i).map print)
        ++ (print (put text l[i]) ++ String.join ((l.drop (i + 1)).map print)) := by
    intro text
    rw [List.modify_eq_take_cons_drop hi, List.map_append, List.map_cons, String.join_append,
      String.join_cons]
  simp only [hsplit]
  exact (h.before _).behind _

/-! ## Members -/

theorem passesOn_routine (r : Routine) : PassesOn fun text => routine (r.withText text) :=
  passesOn_withBody (signature r.entity (r.entity.name ++ "(" ++ parameters r.parameters ++ ")"))

theorem passesOn_accessor (label : String) (a : Accessor) :
    PassesOn fun text => accessor label (some (a.withText text)) :=
  passesOn_withBody (keywords a.entity.flags ++ label ++ ":")

theorem passesOn_accessors {p : Property} {sort : AccessorSort} {a : Accessor}
    (h : p.accessorAt? sort = some a) : PassesOn fun text => accessors (p.withText text sort) := by
  cases sort with
  | getter =>
    have hgetter : p.getter = some a := h
    simp only [accessors, Property.withText, hgetter, Option.map_some]
    exact (passesOn_accessor "getter" a).before _
  | setter =>
    have hsetter : p.setter = some a := h
    simp only [accessors, Property.withText, hsetter, Option.map_some]
    exact (passesOn_accessor "setter" a).behind _

theorem entity_withText (p : Property) (text : String) (sort : AccessorSort) :
    (p.withText text sort).entity = p.entity := by
  cases sort <;> rfl

theorem parameters_withText (p : Property) (text : String) (sort : AccessorSort) :
    (p.withText text sort).parameters = p.parameters := by
  cases sort <;> rfl

theorem passesOn_property {p : Property} {sort : AccessorSort} {a : Accessor}
    (h : p.accessorAt? sort = some a) : PassesOn fun text => property (p.withText text sort) := by
  simp only [property, entity_withText]
  exact (passesOn_accessors h).behind _

theorem passesOn_indexer {p : Property} {sort : AccessorSort} {a : Accessor}
    (h : p.accessorAt? sort = some a) : PassesOn fun text => indexer (p.withText text sort) := by
  simp only [indexer, entity_withText, parameters_withText]
  exact (passesOn_accessors h).behind _

/-! ## Types and namespaces -/

/-- The body is in one section of a class; the others and their headings are printed as they are. -/
theorem passesOn_classDecl {decl : ClassDecl} {place : MemberPlace} {body : Body}
    (h : decl.bodyAt? place = some body) :
    PassesOn fun text => classDecl (decl.withBodyText place text) := by
  -- Each case adds the sections of the class around the one with the body, from the inside out.
  cases place with
  | inProperty index sort =>
    obtain ⟨p, accessor, hproperty, haccessor, -⟩ := exists_accessorAt? h
    have hsection := passesOn_join property (fun text p => p.withText text sort) hproperty
      (passesOn_property haccessor)
    simp only [classDecl, ClassDecl.withBodyText]
    exact (((((((hsection.behind _).before _).before _).before _).before _).before _).before
      _).before _
  | inIndexer index sort =>
    obtain ⟨p, accessor, hindexer, haccessor, -⟩ := exists_accessorAt? h
    have hsection := passesOn_join indexer (fun text p => p.withText text sort) hindexer
      (passesOn_indexer haccessor)
    simp only [classDecl, ClassDecl.withBodyText]
    exact (((((hsection.behind _).before _).before _).before _).before _).before _
  | inConstructor index =>
    obtain ⟨r, hroutine, -⟩ := Option.map_eq_some_iff.1 h
    have hsection := passesOn_join routine Routine.withText hroutine (passesOn_routine r)
    simp only [classDecl, ClassDecl.withBodyText]
    exact (((hsection.behind _).before _).before _).before _
  | inMethod index =>
    obtain ⟨r, hroutine, -⟩ := Option.map_eq_some_iff.1 h
    have hsection := passesOn_join routine Routine.withText hroutine (passesOn_routine r)
    simp only [classDecl, ClassDecl.withBodyText]
    exact (hsection.behind _).before _

/-- The text of a type among the classes of a namespace. -/
def classText : TypeDecl → String
  | .ofClass decl => classDecl decl
  | .ofEnum _ => ""

theorem join_classes (types : List TypeDecl) :
    String.join ((types.filterMap TypeDecl.class?).map classDecl)
      = String.join (types.map classText) := by
  induction types with
  | nil => rfl
  | cons type types ih =>
    cases type with
    | ofClass decl =>
      have hclass : (TypeDecl.ofClass decl).class? = some decl := rfl
      rw [List.filterMap_cons_some hclass, List.map_cons, List.map_cons, String.join_cons,
        String.join_cons, ih, classText]
    | ofEnum decl =>
      have hclass : (TypeDecl.ofEnum decl).class? = none := rfl
      rw [List.filterMap_cons_none hclass, List.map_cons, String.join_cons, ih, classText,
        String.empty_append]

theorem enums_withBodyText (s : Namespace) (place : BodyPlace) (text : String) :
    (s.withBodyText place text).enums = s.enums := by
  have hkeeps : ∀ (types : List TypeDecl) (i : Nat) (f : ClassDecl → ClassDecl),
      (types.modify i (TypeDecl.mapClass f)).filterMap TypeDecl.enum?
        = types.filterMap TypeDecl.enum? := by
    intro types
    induction types with
    | nil => simp
    | cons type types ih =>
      intro i f
      cases i with
      | zero =>
        -- A change of classes leaves an enumeration alone and makes none of a class.
        cases type <;> rfl
      | succ i => rw [List.modify_succ_cons, List.filterMap_cons, List.filterMap_cons, ih]
  exact hkeeps s.types place.type _

/-- The text of a body passes into the listing of its namespace verbatim and changes nothing else
there. With `front` and `back` the same for all texts, the listing is `front`, a line feed, the
text, a line feed unless the text ends with one, and `back`; for all texts of blanks it is one and
the same, without the text. The texts include the one that the body has. -/
theorem listing_of_bodyAt (s : Namespace) (place : BodyPlace) (body : Body)
    (h : s.bodyAt? place = some body) :
    s.withBodyText place body.text = s ∧
      ∃ front back, Surrounds front back fun text => space (s.withBodyText place text) := by
  refine ⟨Namespace.withBodyText_self h, ?_⟩
  obtain ⟨decl, htype, hbody⟩ := Namespace.bodyAt?_eq_some_iff.1 h
  have hclasses := passesOn_join classText
    (fun text type => type.mapClass (ClassDecl.withBodyText place.member text)) htype
    (passesOn_classDecl hbody)
  have hspace : ∀ text, space (s.withBodyText place text)
      = header s.name ++ String.join ((s.withBodyText place text).types.map classText)
        ++ String.join (s.enums.map enumDecl) ++ footer s.name := by
    intro text
    rw [space, enums_withBodyText, Namespace.classes, join_classes]
    rfl
  -- The header stands in front of the classes, the enumerations and the footer behind them.
  simp only [hspace]
  exact ((hclasses.behind _).before _).before _

/-- An enumeration in front of a class that has an indexer with both accessors, a constructor
without a body and a method whose body looks like the end of the class. -/
def drawerSpace : Namespace where
  name := some "Drawers"
  types := [
    .ofEnum { name := "Size", members := [{ name := "Small" }] },
    .ofClass {
      name := "Drawer"
      constructors := [{ entity := { name := "Drawer" } }]
      methods := [{ entity := { name := "Close" }, body := { text := "\x7d; // class Drawer\n" } }]
      indexers := [
        { entity := { name := "this", type := "int" }
          parameters := [{ name := "i", type := "int" }]
          getter := some { body := { text := "return items[i];" } }
          setter := some { body := { text := "  \n" } } }] }]

theorem listing_of_bodyAt_drawerSpace :
    drawerSpace.bodyAt? ⟨1, .inIndexer 0 .setter⟩ = some { text := "  \n" } ∧
      drawerSpace.withBodyText ⟨1, .inIndexer 0 .setter⟩ "  \n" = drawerSpace ∧
      ∃ front back, Surrounds front back fun text =>
        space (drawerSpace.withBodyText ⟨1, .inIndexer 0 .setter⟩ text) := by
  have hbody : drawerSpace.bodyAt? ⟨1, .inIndexer 0 .setter⟩ = some { text := "  \n" } := by decide
  exact ⟨hbody, listing_of_bodyAt drawerSpace ⟨1, .inIndexer 0 .setter⟩ { text := "  \n" } hbody⟩

end Listing

end Recast
