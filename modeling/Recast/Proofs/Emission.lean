import Recast.Listing

/-!
# Writing a listing

A listing can be written piece by piece to the end of a text that grows. A writer is what is done to
the text so far, and a loop over members runs a writer for each of them. The writers follow the
parts of a program as the texts of `Listing` do.

All that a writer ever does is to put a text at the end of what is there (`Appends`), whatever that
is. So two writers one after the other put the one text behind the other (`Appends.andThen`), a loop
puts the texts of its rounds behind one another (`appends_forM`), and by the parts of a program each
writer puts the text of its part (`appends_writeSpace`). In the end the text is the listing
(`written_writeSpace`), with no part of it lost or written twice.
-/

set_option autoImplicit false

namespace Recast.Listing

/-! ## Writers -/

/-- Something that is done to the text so far. -/
abbrev Writer := StateM String Unit

/-- Puts a text at the end. -/
def push (text : String) : Writer :=
  modify fun output => output ++ text

/-- The blanks of one level. -/
def indentation : String :=
  "    "

/-- Writes a line at some level. -/
def writeLine (level : Nat) (text : String) : Writer := do
  (List.range level).forM fun _ => push indentation
  push text
  push "\n"

/-- Writes a head with its body, and ends the last line of the body if it is open. -/
def writeWithBody (head body : String) : Writer :=
  if Text.isAllBlank body then writeLine 1 (head ++ ";")
  else do
    writeLine 1 head
    push body
    if body.toList.getLast? ≠ some '\n' then push "\n"

/-- Writes a field. -/
def writeField (f : FieldDecl) : Writer :=
  writeLine 1 (signature f.entity (withValue f.entity.name f.init) ++ ";")

/-- Writes a method or constructor. -/
def writeRoutine (r : Routine) : Writer :=
  let declarator := r.entity.name ++ "(" ++ parameters r.parameters ++ ")"
  writeWithBody (signature r.entity declarator) r.body.text

/-- Writes an accessor under its label, if there is one. -/
def writeAccessor (label : String) : Option Accessor → Writer
  | some a => writeWithBody (keywords a.entity.flags ++ label ++ ":") a.body.text
  | none => pure ()

/-- Writes the accessors of a property, the getter first. -/
def writeAccessors (p : Property) : Writer :=
  [("getter", p.getter), ("setter", p.setter)].forM fun accessor =>
    writeAccessor accessor.1 accessor.2

/-- Writes a property. -/
def writeProperty (p : Property) : Writer := do
  writeLine 1 (signature p.entity p.entity.name)
  writeAccessors p

/-- Writes an indexer. -/
def writeIndexer (p : Property) : Writer := do
  let declarator := p.entity.name ++ "[" ++ parameters p.parameters ++ "]"
  writeLine 1 (signature p.entity declarator)
  writeAccessors p

/-- Writes a class. -/
def writeClass (decl : ClassDecl) : Writer := do
  writeLine 0 ("class " ++ decl.name ++ bases decl.bases ++ " \x7b")
  writeLine 1 "// fields"
  decl.fields.forM writeField
  writeLine 1 "// properties"
  decl.properties.forM writeProperty
  writeLine 1 "// indexers"
  decl.indexers.forM writeIndexer
  writeLine 1 "// constructors"
  decl.constructors.forM writeRoutine
  writeLine 1 "// methods"
  decl.methods.forM writeRoutine
  writeLine 0 ("\x7d; // class " ++ decl.name)

/-- Writes a member of an enumeration. -/
def writeEnumMember (member : EnumMember) : Writer :=
  writeLine 1 (withValue member.name member.init)

/-- Writes an enumeration. -/
def writeEnum (decl : EnumDecl) : Writer := do
  writeLine 0 ("enum " ++ decl.name ++ bases decl.bases ++ " \x7b")
  decl.members.forM writeEnumMember
  writeLine 0 ("\x7d; // enum " ++ decl.name)

/-- Writes a type. -/
def writeType : TypeDecl → Writer
  | .ofClass decl => writeClass decl
  | .ofEnum decl => writeEnum decl

/-- Writes the first line of a namespace. -/
def writeHeader : Option String → Writer
  | some name => writeLine 0 ("namespace " ++ name ++ " \x7b")
  | none => writeLine 0 "namespace \x7b"

/-- Writes the last line of a namespace. -/
def writeFooter : Option String → Writer
  | some name => writeLine 0 ("\x7d // namespace " ++ name)
  | none => writeLine 0 "\x7d // namespace"

/-- Writes a namespace. -/
def writeSpace (s : Namespace) : Writer := do
  writeHeader s.name
  s.classes.forM writeClass
  s.enums.forM writeEnum
  writeFooter s.name

/-- What a writer writes to begin with. -/
def written (writer : Writer) : String :=
  (writer.run "").2

/-! ## What is put at the end -/

/-- All that a writer does is to put a text at the end. -/
def Appends (writer : Writer) (text : String) : Prop :=
  ∀ output, writer.run output = ((), output ++ text)

theorem Appends.written_eq {writer : Writer} {text : String} (h : Appends writer text) :
    written writer = text := by
  rw [written, h, String.empty_append]

theorem appends_push (text : String) : Appends (push text) text :=
  fun _ => rfl

theorem appends_pure : Appends (pure ()) "" := by
  intro output
  rw [StateT.run_pure, String.append_empty]
  rfl

/-- One writer after the other puts the one text behind the other. -/
theorem Appends.andThen {first next : Writer} {text rest : String} (h : Appends first text)
    (hnext : Appends next rest) : Appends (do first; next) (text ++ rest) := by
  intro output
  rw [StateT.run_bind, h output, ← String.append_assoc]
  exact hnext (output ++ text)

/-- A loop puts the texts of its rounds behind one another. -/
theorem appends_forM {α : Type} {write : α → Writer} {text : α → String}
    (h : ∀ x, Appends (write x) (text x)) (xs : List α) :
    Appends (xs.forM write) (String.join (xs.map text)) := by
  induction xs with
  | nil => exact appends_pure
  | cons x xs ih =>
    rw [List.map_cons, String.join_cons]
    exact (h x).andThen ih

/-! ## Lines and members -/

/-- The loop over the levels puts the indentation in front. -/
theorem appends_writeLine (level : Nat) (text : String) :
    Appends (writeLine level text)
      (String.join ((List.range level).map fun _ => indentation) ++ (text ++ "\n")) :=
  (appends_forM (fun _ => appends_push indentation) (List.range level)).andThen
    ((appends_push text).andThen (appends_push "\n"))

theorem appends_writeLine_zero (text : String) : Appends (writeLine 0 text) (line text) := by
  have hline := appends_writeLine 0 text
  rwa [List.range_zero, List.map_nil, String.join_nil, String.empty_append] at hline

theorem appends_writeLine_one (text : String) : Appends (writeLine 1 text) (innerLine text) := by
  have hline := appends_writeLine 1 text
  rwa [List.range_one, List.map_singleton, String.join_cons, String.join_nil, String.append_empty,
    ← String.append_assoc] at hline

/-- The last line of a body is ended if and only if it is open. -/
theorem appends_writeWithBody (head body : String) :
    Appends (writeWithBody head body) (withBody head body) := by
  rw [writeWithBody, withBody]
  split
  · exact appends_writeLine_one (head ++ ";")
  · have hend : Appends (if body.toList.getLast? ≠ some '\n' then push "\n" else pure ())
        (lineEnd body) := by
      rw [lineEnd, ite_not]
      split
      · exact appends_pure
      · exact appends_push "\n"
    rw [String.append_assoc]
    exact (appends_writeLine_one head).andThen ((appends_push body).andThen hend)

theorem appends_writeField (f : FieldDecl) : Appends (writeField f) (field f) :=
  appends_writeLine_one _

theorem appends_writeRoutine (r : Routine) : Appends (writeRoutine r) (routine r) :=
  appends_writeWithBody _ _

theorem appends_writeAccessor (label : String) (a : Option Accessor) :
    Appends (writeAccessor label a) (accessor label a) := by
  cases a with
  | none => exact appends_pure
  | some a => exact appends_writeWithBody _ _

/-- The loop over the accessors puts the getter in front of the setter. -/
theorem appends_writeAccessors (p : Property) : Appends (writeAccessors p) (accessors p) := by
  have hloop := appends_forM (fun labelled => appends_writeAccessor labelled.1 labelled.2)
    [("getter", p.getter), ("setter", p.setter)]
  rwa [List.map_cons, List.map_singleton, String.join_cons, String.join_cons, String.join_nil,
    String.append_empty] at hloop

theorem appends_writeProperty (p : Property) : Appends (writeProperty p) (property p) :=
  (appends_writeLine_one _).andThen (appends_writeAccessors p)

theorem appends_writeIndexer (p : Property) : Appends (writeIndexer p) (indexer p) :=
  (appends_writeLine_one _).andThen (appends_writeAccessors p)

/-! ## Types and namespaces -/

/-- A line of a class with the members below it. -/
theorem appends_titled {α : Type} {write : α → Writer} {text : α → String}
    (h : ∀ x, Appends (write x) (text x)) (title : String) (xs : List α) {rest : Writer}
    {restText : String} (hrest : Appends rest restText) :
    Appends (do writeLine 1 title; xs.forM write; rest)
      (innerLine title ++ (String.join (xs.map text) ++ restText)) :=
  (appends_writeLine_one title).andThen ((appends_forM h xs).andThen hrest)

/-- The sections of a class come one after the other, each with its loop. -/
theorem appends_writeClass (decl : ClassDecl) : Appends (writeClass decl) (classDecl decl) := by
  rw [writeClass, classDecl]
  -- With the texts nested as the steps are, each section is one step.
  simp only [String.append_assoc]
  apply (appends_writeLine_zero _).andThen
  apply appends_titled appends_writeField
  apply appends_titled appends_writeProperty
  apply appends_titled appends_writeIndexer
  apply appends_titled appends_writeRoutine
  apply appends_titled appends_writeRoutine
  exact appends_writeLine_zero _

theorem appends_writeEnum (decl : EnumDecl) : Appends (writeEnum decl) (enumDecl decl) := by
  have hmember : ∀ member, Appends (writeEnumMember member) (enumMember member) :=
    fun _ => appends_writeLine_one _
  rw [enumDecl, String.append_assoc]
  exact (appends_writeLine_zero _).andThen
    ((appends_forM hmember decl.members).andThen (appends_writeLine_zero _))

theorem appends_writeType (decl : TypeDecl) : Appends (writeType decl) (typeDecl decl) := by
  cases decl with
  | ofClass decl => exact appends_writeClass decl
  | ofEnum decl => exact appends_writeEnum decl

theorem appends_writeHeader (name : Option String) : Appends (writeHeader name) (header name) := by
  cases name <;> exact appends_writeLine_zero _

theorem appends_writeFooter (name : Option String) : Appends (writeFooter name) (footer name) := by
  cases name <;> exact appends_writeLine_zero _

/-- Writing a namespace puts its listing at the end of whatever was written before. -/
theorem appends_writeSpace (s : Namespace) : Appends (writeSpace s) (space s) := by
  rw [space, String.append_assoc, String.append_assoc]
  exact (appends_writeHeader s.name).andThen
    ((appends_forM appends_writeClass s.classes).andThen
      ((appends_forM appends_writeEnum s.enums).andThen (appends_writeFooter s.name)))

/-- What is written for a namespace is its listing. -/
theorem written_writeSpace (s : Namespace) : written (writeSpace s) = space s :=
  (appends_writeSpace s).written_eq

/-- What is written for each type of a namespace by itself is its piece of the listing. -/
theorem written_writeType (decl : TypeDecl) : written (writeType decl) = typeDecl decl :=
  (appends_writeType decl).written_eq

end Recast.Listing
