import Recast.Proofs.Position
import Recast.Proofs.Spelling
import Recast.Tree.Json

/-!
# Tree dumps read back

A dump leaves out every field that has its usual value. For type references and for nodes, `given`
lists the fields with what the dump gives for each, so that writing is spelling (`TypeRef.spells`,
`Node.spells`), and reading back goes field by field: what is left out is exactly what the reader
puts in again.

The readers bound the nesting by the depth of the value. A part of a record lies less deep than the
record, so the bound that is left for it always suffices (`ofJsonWithin_toJson`). Hints hold type
references and have no parts of their own sort.

A dump of several units is an array and the dump of a node is an object. The reader of units tries
a list first, and an object is no list, so neither is taken for the other (`dumps_read_back`).
-/

set_option autoImplicit false

namespace Recast

/-! ## Type references -/

/-- No two ways to pass an argument have one keyword. -/
theorem Passing.find?_label (passing : Passing) :
    all.find? (fun one => one.label == passing.label) = some passing := by
  cases passing <;> decide

namespace TypeRef

/-- Induction over type references: what passes from the arguments and the element type of a type
reference to the type reference holds of all. -/
@[elab_as_elim]
theorem induction {motive : TypeRef → Prop}
    (step : ∀ t : TypeRef, (∀ arg ∈ t.args, motive arg) → (∀ element ∈ t.element, motive element) →
      motive t) (t : TypeRef) : motive t :=
  step t (fun arg _harg => induction step arg) fun element _helement => induction step element
termination_by sizeOf t
decreasing_by
  · have hlt := List.sizeOf_lt_of_mem _harg
    cases t
    simp only [TypeRef.mk.sizeOf_spec] at hlt ⊢
    omega
  · obtain ⟨qualifier, name, args, inner, passing⟩ := t
    obtain rfl : inner = some element := _helement
    simp only [TypeRef.mk.sizeOf_spec, Option.some.sizeOf_spec]
    omega

/-- The fields of a type reference with what a dump gives for them. -/
def given (t : TypeRef) : List (String × Option Json) :=
  [("namespace", t.qualifier.map .str), ("name", some (.str t.name)),
    ("type_args", Json.arrayIf (t.args.map toJson)), ("element", t.element.map toJson),
    ("by_ref", t.passing.map fun p => .str p.label)]

/-- A type reference is written as a record. -/
theorem spells : Json.Spells layout given toJson where
  nodup_names := by decide
  names_given _ := rfl
  encode_eq t := by
    obtain ⟨qualifier, name, args, element, passing⟩ := t
    have hargs : toJsonAll args = args.map toJson :=
      Json.eq_map_of_cons (by rw [toJsonAll]) (fun _ _ => by rw [toJsonAll]) args
    have helement : toJsonElement element = element.map toJson := by
      cases element <;> rfl
    rw [toJson, hargs, helement]
    simp only [Json.spelled, given, List.flatMap_cons, List.flatMap_nil, List.append_nil,
      List.append_assoc]
    rfl

/-- A type reference reads back from its dump, if the bound is not below the depth of the dump. -/
theorem ofJsonWithin_toJson (t : TypeRef) :
    ∀ bound, t.toJson.depth ≤ bound → ofJsonWithin bound t.toJson = some t := by
  induction t using TypeRef.induction with
  | step t hargs helement =>
    intro bound hbound
    obtain ⟨rest, rfl⟩ := spells.exists_bound_eq hbound
    -- What is left of the bound suffices for every part.
    have hargsBack : ∀ arg ∈ t.args, ofJsonWithin rest arg.toJson = some arg := by
      intro arg harg
      have hlt := spells.depth_lt_of_mem_arrayIf "type_args" (a := t) (by simp [given]) harg
      exact hargs arg harg rest (by omega)
    have helementBack : ∀ element ∈ t.element,
        ofJsonWithin rest element.toJson = some element := by
      intro element hmem
      have hlt := spells.depth_lt_of_mem_map "element" (a := t) (by simp [given]) hmem
      exact helement element hmem rest (by omega)
    have hqualifier : Json.ReadsAs (Json.orNull Json.text?) none (t.qualifier.map .str)
        t.qualifier :=
      Json.readsAs_optional (fun _ _ => Json.noConfusion) fun _ _ => rfl
    have hargsRead : Json.ReadsAs (Json.list? (ofJsonWithin rest)) []
        (Json.arrayIf (t.args.map toJson)) t.args :=
      Json.readsAs_arrayIf hargsBack
    have helementRead : Json.ReadsAs (Json.orNull (ofJsonWithin rest)) none
        (t.element.map toJson) t.element :=
      Json.readsAs_optional (fun element _ => spells.encode_ne_null element) helementBack
    have hpassing : Json.ReadsAs (Json.orNull (Json.choice? Passing.label Passing.all)) none
        (t.passing.map fun p => .str p.label) t.passing :=
      Json.readsAs_optional (fun _ _ => Json.noConfusion)
        fun passing _ => Json.choice?_label passing.find?_label
    have hlookup := spells.lookup_given t
    rw [ofJsonWithin, spells.fields?_encode]
    generalize Json.spelled t.given = fields at hlookup ⊢
    simp only [given, List.forall_mem_cons] at hlookup
    obtain ⟨atQualifier, atName, atArgs, atElement, atPassing, -⟩ := hlookup
    simp only [Option.bind_eq_bind, Option.bind_some,
      Json.Fields.optional_of_readsAs atQualifier hqualifier,
      Json.Fields.withDefault_of_readsAs atName (Json.readsAs_text t.name),
      Json.Fields.withDefault_of_readsAs atArgs hargsRead,
      Json.Fields.optional_of_readsAs atElement helementRead,
      Json.Fields.optional_of_readsAs atPassing hpassing]
    cases t
    rfl

/-- The depth of a dump is bound enough. -/
theorem ofJson?_toJson (t : TypeRef) : ofJson? t.toJson = some t :=
  t.ofJsonWithin_toJson _ (Nat.le_refl _)

/-- No dump of a type reference is refused for what stands in it. -/
theorem isUsable_toJson (t : TypeRef) : t.toJson.isUsable = true := by
  induction t using TypeRef.induction with
  | step t hargs helement =>
    apply spells.isUsable_encode
    simp only [given, List.forall_mem_cons]
    refine ⟨?_, ?_, ?_, ?_, ?_, by simp⟩
    · exact Json.isUsable_of_mem_map fun _ _ => rfl
    · rintro j ⟨⟩
      rfl
    · exact Json.isUsable_of_mem_arrayIf hargs
    · exact Json.isUsable_of_mem_map helement
    · exact Json.isUsable_of_mem_map fun _ _ => rfl

end TypeRef

/-! ## Hints -/

namespace TypeHint

/-- Each of the six sorts of hints has a tag of its own, and the fields behind the tag are all
given, so that only the type references in them are left to read. -/
theorem ofJson?_toJson (hint : TypeHint) : ofJson? hint.toJson = some hint := by
  cases hint with
  | typeDefinition type =>
    show (TypeRef.ofJson? type.toJson).map typeDefinition = some (typeDefinition type)
    rw [TypeRef.ofJson?_toJson, Option.map_some]
  | typeReference type =>
    show (TypeRef.ofJson? type.toJson).map typeReference = some (typeReference type)
    rw [TypeRef.ofJson?_toJson, Option.map_some]
  | inferredType type =>
    show (TypeRef.ofJson? type.toJson).map inferredType = some (inferredType type)
    rw [TypeRef.ofJson?_toJson, Option.map_some]
  | ofVariable name type =>
    show ((TypeRef.ofJson? type.toJson).bind fun t => some (ofVariable name t))
      = some (ofVariable name type)
    rw [TypeRef.ofJson?_toJson, Option.bind_some]
  | ofField name type declaring =>
    show ((TypeRef.ofJson? type.toJson).bind fun t =>
        (TypeRef.ofJson? declaring.toJson).bind fun owner => some (ofField name t owner))
      = some (ofField name type declaring)
    rw [TypeRef.ofJson?_toJson, TypeRef.ofJson?_toJson, Option.bind_some, Option.bind_some]
  | ofProperty name type declaring =>
    show ((TypeRef.ofJson? type.toJson).bind fun t =>
        (TypeRef.ofJson? declaring.toJson).bind fun owner => some (ofProperty name t owner))
      = some (ofProperty name type declaring)
    rw [TypeRef.ofJson?_toJson, TypeRef.ofJson?_toJson, Option.bind_some, Option.bind_some]

theorem isUsable_toJson (hint : TypeHint) : hint.toJson.isUsable = true := by
  cases hint <;>
    simp only [toJson, Json.isUsable, Json.usableMembers, TypeRef.isUsable_toJson, Bool.and_self]

end TypeHint

/-! ## Nodes -/

/-- No two kinds have one label. -/
theorem Kind.find?_label (kind : Kind) :
    all.find? (fun one => one.label == kind.label) = some kind := by
  cases kind <;> decide

theorem Role.find?_label (role : Role) :
    all.find? (fun one => one.label == role.label) = some role := by
  cases role <;> decide

theorem Modifier.find?_label (modifier : Modifier) :
    all.find? (fun one => one.label == modifier.label) = some modifier := by
  cases modifier <;> decide

namespace Node

/-- The fields of a node with what a dump gives for them. -/
def given (node : Node) : List (String × Option Json) :=
  [("kind", some (.str node.kind.label)), ("role", roleIf node.role),
    ("name", Json.textIf node.name), ("text", Json.textIf node.text),
    ("modifiers", Json.arrayIf (node.modifiers.map fun m => .str m.label)),
    ("attributes", Json.arrayIf (node.attributes.map .str)),
    ("annotations", Json.arrayIf (node.hints.map TypeHint.toJson)),
    ("children", Json.arrayIf (node.children.map toJson))]

/-- A node is written as a record. -/
theorem spells : Json.Spells layout given toJson where
  nodup_names := by decide
  names_given _ := rfl
  encode_eq node := by
    obtain ⟨kind, role, name, text, modifiers, attributes, hints, children⟩ := node
    have hchildren : toJsonAll children = children.map toJson :=
      Json.eq_map_of_cons (by rw [toJsonAll]) (fun _ _ => by rw [toJsonAll]) children
    rw [toJson, hchildren]
    simp only [Json.spelled, given, List.flatMap_cons, List.flatMap_nil, List.append_nil,
      List.append_assoc]
    rfl

/-- A role that is left out if it is the usual one. -/
theorem readsAs_roleIf (role : Role) :
    Json.ReadsAs (Json.choice? Role.label Role.all) .plain (roleIf role) role := by
  rw [roleIf]
  split
  case isTrue h => exact h
  case isFalse => exact Json.choice?_label role.find?_label

/-- A node reads back from its dump, if the bound is not below the depth of the dump. -/
theorem ofJsonWithin_toJson (node : Node) :
    ∀ bound, node.toJson.depth ≤ bound → ofJsonWithin bound node.toJson = some node := by
  induction node using Node.induction with
  | step node hchildren =>
    intro bound hbound
    obtain ⟨rest, rfl⟩ := spells.exists_bound_eq hbound
    have hchildrenBack : ∀ child ∈ node.children,
        ofJsonWithin rest child.toJson = some child := by
      intro child hchild
      have hlt := spells.depth_lt_of_mem_arrayIf "children" (a := node) (by simp [given]) hchild
      exact hchildren child hchild rest (by omega)
    have hkind : Json.ReadsAs (Json.choice? Kind.label Kind.all) .other
        (some (.str node.kind.label)) node.kind :=
      Json.choice?_label node.kind.find?_label
    have hmodifiers : Json.ReadsAs (Json.list? (Json.choice? Modifier.label Modifier.all)) []
        (Json.arrayIf (node.modifiers.map fun m => .str m.label)) node.modifiers :=
      Json.readsAs_arrayIf fun modifier _ => Json.choice?_label modifier.find?_label
    have hattributes : Json.ReadsAs (Json.list? Json.text?) []
        (Json.arrayIf (node.attributes.map .str)) node.attributes :=
      Json.readsAs_arrayIf fun _ _ => rfl
    have hhints : Json.ReadsAs (Json.list? TypeHint.ofJson?) []
        (Json.arrayIf (node.hints.map TypeHint.toJson)) node.hints :=
      Json.readsAs_arrayIf fun hint _ => hint.ofJson?_toJson
    have hchildrenRead : Json.ReadsAs (Json.list? (ofJsonWithin rest)) []
        (Json.arrayIf (node.children.map toJson)) node.children :=
      Json.readsAs_arrayIf hchildrenBack
    have hlookup := spells.lookup_given node
    rw [ofJsonWithin, spells.fields?_encode]
    generalize Json.spelled node.given = fields at hlookup ⊢
    simp only [given, List.forall_mem_cons] at hlookup
    obtain ⟨atKind, atRole, atName, atText, atModifiers, atAttributes, atHints, atChildren, -⟩ :=
      hlookup
    simp only [Option.bind_eq_bind, Option.bind_some,
      Json.Fields.withDefault_of_readsAs atKind hkind,
      Json.Fields.withDefault_of_readsAs atRole (readsAs_roleIf node.role),
      Json.Fields.withDefault_of_readsAs atName (Json.readsAs_textIf node.name),
      Json.Fields.withDefault_of_readsAs atText (Json.readsAs_textIf node.text),
      Json.Fields.withDefault_of_readsAs atModifiers hmodifiers,
      Json.Fields.withDefault_of_readsAs atAttributes hattributes,
      Json.Fields.withDefault_of_readsAs atHints hhints,
      Json.Fields.withDefault_of_readsAs atChildren hchildrenRead]
    cases node
    rfl

/-- The depth of a dump is bound enough. -/
theorem ofJson?_toJson (node : Node) : ofJson? node.toJson = some node :=
  node.ofJsonWithin_toJson _ (Nat.le_refl _)

/-- No dump of a node is refused for what stands in it. -/
theorem isUsable_toJson (node : Node) : node.toJson.isUsable = true := by
  induction node using Node.induction with
  | step node hchildren =>
    have hrole : ∀ j ∈ roleIf node.role, j.isUsable = true := by
      intro j hj
      rw [roleIf] at hj
      split at hj
      · cases hj
      · obtain rfl := Option.some.inj hj
        rfl
    apply spells.isUsable_encode
    simp only [given, List.forall_mem_cons]
    refine ⟨?_, hrole, Json.isUsable_of_mem_textIf _, Json.isUsable_of_mem_textIf _, ?_, ?_, ?_, ?_,
      by simp⟩
    · rintro j ⟨⟩
      rfl
    · exact Json.isUsable_of_mem_arrayIf fun _ _ => rfl
    · exact Json.isUsable_of_mem_arrayIf fun _ _ => rfl
    · exact Json.isUsable_of_mem_arrayIf fun hint _ => hint.isUsable_toJson
    · exact Json.isUsable_of_mem_arrayIf hchildren

/-! ## Units -/

/-- The dump of several units reads back as a list. -/
theorem unitsOfJson?_arr (nodes : List Node) :
    unitsOfJson? (.arr (nodes.map toJson)) = some nodes := by
  have husable : (Json.arr (nodes.map toJson)).isUsable = true :=
    Json.isUsable_arr_map fun node _ => node.isUsable_toJson
  have hlist : Json.list? ofJson? (.arr (nodes.map toJson)) = some nodes :=
    Json.list?_arr_map fun node _ => node.ofJson?_toJson
  rw [unitsOfJson?, if_pos husable, hlist, Option.some_or]

/-- The dump of a node is no list, so it reads back as one unit. -/
theorem unitsOfJson?_toJson (node : Node) : unitsOfJson? node.toJson = some [node] := by
  have hlist : Json.list? ofJson? node.toJson = none := by
    rw [spells.encode_eq]
    rfl
  rw [unitsOfJson?, if_pos node.isUsable_toJson, hlist, Option.none_or, ofJson?_toJson,
    Option.map_some]

/-! ## What a dump leaves out -/

/-- Whether a dump gives a field of a node: the kind always, another field unless it has its usual
value. -/
def isGiven (node : Node) : String → Bool
  | "kind" => true
  | "role" => node.role ≠ .plain
  | "name" => node.name ≠ ""
  | "text" => node.text ≠ ""
  | "modifiers" => !node.modifiers.isEmpty
  | "attributes" => !node.attributes.isEmpty
  | "annotations" => !node.hints.isEmpty
  | "children" => !node.children.isEmpty
  | _ => false

theorem isSome_roleIf (role : Role) : (roleIf role).isSome = decide (role ≠ .plain) := by
  cases role <;> rfl

/-- The keys of a dump are the names of the fields that have not their usual values. -/
theorem keys_given (node : Node) :
    (Json.spelled node.given).map Prod.fst = layout.names.filter node.isGiven := by
  have hgiven : ∀ field ∈ node.given, field.2.isSome = node.isGiven field.1 := by
    simp only [given, List.forall_mem_cons]
    refine ⟨rfl, isSome_roleIf _, Json.isSome_textIf _, Json.isSome_textIf _,
      Json.isSome_arrayIf_map _ _, Json.isSome_arrayIf_map _ _, Json.isSome_arrayIf_map _ _,
      Json.isSome_arrayIf_map _ _, by simp⟩
  rw [Json.keys_spelled, ← spells.names_given node, List.filter_map, List.filter_congr hgiven]
  rfl

end Node

/-- Tree dumps read back. The dump of a node is an object that gives the kind and those other fields
that have not their usual value; it decodes to the node. The reader of units takes a dump of several
nodes, also of none, for these nodes, and the dump of a single node for this node alone. -/
theorem dumps_read_back (node : Node) (nodes : List Node) :
    (∃ members, node.toJson = .obj members ∧
        members.map Prod.fst = Node.layout.names.filter node.isGiven) ∧
      Node.ofJson? node.toJson = some node ∧
      Node.unitsOfJson? (.arr (nodes.map Node.toJson)) = some nodes ∧
      Node.unitsOfJson? node.toJson = some [node] :=
  ⟨⟨_, Node.spells.encode_eq node, node.keys_given⟩, node.ofJson?_toJson,
    Node.unitsOfJson?_arr nodes, node.unitsOfJson?_toJson⟩

end Recast
