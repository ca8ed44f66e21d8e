import Recast.Proofs.Members

/-!
# Fields that do not bind one variable

A field declaration has to bind exactly one variable, and this is all that a build without
cancellation asks of a tree. Only the fields of classes are looked at: a field that stands in an
enumeration, or anywhere else, is no member of a class and never makes a build fail.

`Node.fieldPositions` lists the fields of all classes in the order in which they are built, which is
not the order of the tree: scope by scope, in each the classes in pre-order, and the fields of a
class in child order. The fault of a build is that of the first field in this order that does not
bind one variable (`fault?_processed`). A step of the walk is the fault of one declaration
(`declFault?_eq`), and that is the fault of its first such field (`exists_result_members`).
-/

set_option autoImplicit false

namespace Recast

namespace Node

/-- The variables that a field declaration binds. -/
def bindings (field : Node) : List Node :=
  field.childrenAs .binding

/-- The names of these variables: each up to its first assignment sign. -/
def bindingNames (field : Node) : List String :=
  field.bindings.map fun binding => (Code.cutFirst binding.source).1

/-- Whether a field declaration does not bind exactly one variable. -/
def isMisbound (field : Node) : Bool :=
  field.bindings.length ≠ 1

/-- The positions of the fields of all classes in the order in which they are built. -/
def fieldPositions (root : Node) : List Position :=
  (root.owners.flatMap fun owner =>
    (root.ownedDecls owner).filter (root.holdsAt fun node => !node.isEnum)).flatMap
      (root.childPositions .fieldDecl)

/-- The first field in the order of building that does not bind exactly one variable. -/
def IsFirstMisbound (root field : Node) : Prop :=
  ∃ front q back, root.fieldPositions = front ++ q :: back ∧ root.nodeAt? q = some field ∧
    field.isMisbound = true ∧ ∀ earlier ∈ front, root.holdsAt isMisbound earlier = false

end Node

namespace Build

/-! ## The fault of a class -/

/-- The fault of a node that is a field and does not bind one variable. -/
def fieldFault? (node : Node) : Option BuildFault :=
  if node.isOf .fieldDecl && node.isMisbound then some (.fieldBindings node.bindingNames) else none

/-- A field that does not bind one variable has the names of its variables in its fault. -/
theorem result_field_of_isMisbound {node : Node} (h : node.isMisbound = true) :
    (field node).result = .error (.fieldBindings node.bindingNames) := by
  have hentity : (tracedEntity node).result = .ok (entity node) := rfl
  rw [field, Traced.result_bind, hentity]
  simp only [bind, Except.bind]
  split
  case h_1 hone =>
    -- A single name comes from a single variable.
    have hlength := congrArg List.length hone
    rw [List.length_map] at hlength
    simp [Node.isMisbound, Node.bindings, hlength] at h
  case h_2 =>
    rw [Traced.result_fail, Node.bindingNames, Node.bindings, List.map_map]
    rfl

/-- A field that binds one variable is built. -/
theorem exists_result_field {node : Node} (h : node.isMisbound = false) :
    ∃ decl, (field node).result = .ok decl := by
  have hone : node.bindings.length = 1 := by simpa [Node.isMisbound] using h
  obtain ⟨binding, hbinding⟩ := List.length_eq_one_iff.1 hone
  rw [Node.bindings] at hbinding
  rw [field, hbinding]
  exact ⟨_, rfl⟩

theorem exists_result_property (node : Node) : ∃ decl, (property node).result = .ok decl := by
  simp only [property, Traced.result_bind, result_accessorAs]
  exact ⟨_, rfl⟩

/-- Among the members only a field can fail. -/
theorem exists_result_member? {node : Node} {built : Traced BuildFault Member}
    (h : member? node = some built) :
    ∃ member, built.result = faultOr (fieldFault? node) member := by
  have hmade : ∀ {α : Type} {make : α → Member} {x : Traced BuildFault α},
      (∃ a, x.result = .ok a) → ∃ member, (make <$> x).result = faultOr none member := by
    rintro α make x ⟨a, ha⟩
    refine ⟨make a, ?_⟩
    rw [Traced.result_map, ha]
    rfl
  rw [member?] at h
  rw [fieldFault?, Node.isOf]
  split at h
  case h_6 => cases h
  all_goals
    rename_i hkind
    obtain rfl := Option.some.inj h
    rw [hkind]
  case h_1 =>
    cases hmisbound : node.isMisbound with
    | true =>
      refine ⟨.ofField {}, ?_⟩
      rw [Traced.result_map, result_field_of_isMisbound hmisbound]
      rfl
    | false => exact hmade (exists_result_field hmisbound)
  case h_2 => exact hmade (exists_result_property node)
  case h_3 => exact hmade (exists_result_property node)
  case h_4 => exact hmade ⟨_, rfl⟩
  case h_5 => exact hmade ⟨_, rfl⟩

theorem fieldFault?_eq_none {node : Node} (h : member? node = none) : fieldFault? node = none := by
  have hkind : node.isOf .fieldDecl = false := by
    rw [Node.isOf, decide_eq_false_iff_not]
    intro hkind
    simp [member?, hkind] at h
  rw [fieldFault?, hkind]
  rfl

/-- The members of a class fail with the fault of the first field that has one. -/
theorem exists_result_members (nodes : List Node) :
    ∃ built, (members nodes).result = faultOr (nodes.findSome? fieldFault?) built := by
  induction nodes with
  | nil => exact ⟨[], rfl⟩
  | cons node nodes ih =>
    obtain ⟨built, hbuilt⟩ := ih
    rw [members, List.findSome?_cons]
    cases hmember : member? node with
    | none =>
      rw [fieldFault?_eq_none hmember]
      exact ⟨built, hbuilt⟩
    | some first =>
      obtain ⟨member, hfirst⟩ := exists_result_member? hmember
      refine ⟨member :: built, (result_cons_eq_faultOr hfirst hbuilt).trans ?_⟩
      cases fieldFault? node <;> rfl

/-- A declaration fails with the fault of its first field that has one, unless it is an
enumeration. -/
theorem declFault?_eq (node : Node) :
    declFault? node = if node.isEnum then none else node.children.findSome? fieldFault? := by
  obtain ⟨built, hbuilt⟩ := exists_result_members node.children
  rw [declFault?, typeDecl, Node.isEnum]
  by_cases henum : node.kind = .enumDecl
  · rw [if_pos henum, if_pos (decide_eq_true henum)]
    rfl
  · rw [if_neg henum, if_neg (by simpa using henum), Traced.result_map, classDecl,
      Traced.result_bind, hbuilt]
    cases node.children.findSome? fieldFault? <;> rfl

/-! ## The fault of a build -/

/-- A search in lists one after the other. -/
theorem findSome?_flatMap_eq {α β γ : Type} (l : List γ) (g : γ → List α) (f : α → Option β) :
    (l.flatMap g).findSome? f = l.findSome? fun c => (g c).findSome? f := by
  simp only [← List.head?_filterMap, List.filterMap_flatMap, List.head?_flatMap]

theorem findSome?_nodesAt {β : Type} (root : Node) (ps : List Position) (f : Node → Option β) :
    (root.nodesAt ps).findSome? f = ps.findSome? fun p => (root.nodeAt? p).bind f := by
  rw [← List.head?_filterMap, ← List.head?_filterMap, Node.nodesAt, List.filterMap_filterMap]

/-- The fault of a class declaration is that of the first of its fields that has one. -/
theorem bind_declFault?_eq {root : Node} {p : Position}
    (h : root.holdsAt (fun node => !node.isEnum) p = true) :
    (root.nodeAt? p).bind declFault?
      = (root.childPositions .fieldDecl p).findSome? fun q =>
          (root.nodeAt? q).bind fieldFault? := by
  rw [Node.holdsAt, Option.any_eq_true] at h
  obtain ⟨node, hnode, hclass⟩ := h
  have henum : node.isEnum = false := by simpa using hclass
  have hfields : (node.children.filter (Node.isOf .fieldDecl)).findSome? fieldFault?
      = node.children.findSome? fieldFault? := by
    apply findSome?_filter_of_none
    intro child _ hkind
    rw [fieldFault?, hkind]
    rfl
  rw [← findSome?_nodesAt, Node.nodesAt_childPositions hnode, hfields, hnode, Option.bind_some,
    declFault?_eq, henum]
  rfl

/-- The fault of a build is that of the first field of a class that has one. -/
theorem fault?_processed (root : Node) :
    fault? none root.processed
      = root.fieldPositions.findSome? fun q => (root.nodeAt? q).bind fieldFault? := by
  have henums : ∀ p ∈ root.owners.flatMap root.buildOrder,
      root.holdsAt (fun node => !node.isEnum) p = false →
        (root.nodeAt? p).bind declFault? = none := by
    intro p _ hp
    cases hnode : root.nodeAt? p with
    | none => rfl
    | some node =>
      have henum : node.isEnum = true := by simpa [Node.holdsAt, hnode] using hp
      rw [Option.bind_some, declFault?_eq, henum]
      rfl
  have hclasses : ∀ p ∈ root.builtClasses, (root.nodeAt? p).bind declFault?
      = (root.childPositions .fieldDecl p).findSome? fun q =>
          (root.nodeAt? q).bind fieldFault? :=
    fun p hp => bind_declFault?_eq (List.mem_filter.1 hp).2
  calc fault? none root.processed
      = (root.owners.flatMap root.buildOrder).findSome? fun p =>
          (root.nodeAt? p).bind declFault? := findSome?_nodesAt root _ declFault?
    _ = root.builtClasses.findSome? fun p => (root.nodeAt? p).bind declFault? :=
        (findSome?_filter_of_none henums).symm
    _ = root.builtClasses.findSome? fun p =>
          (root.childPositions .fieldDecl p).findSome? fun q =>
            (root.nodeAt? q).bind fieldFault? := by
        rw [← List.head?_filterMap, ← List.head?_filterMap, List.filterMap_congr hclasses]
    _ = root.fieldPositions.findSome? fun q => (root.nodeAt? q).bind fieldFault? := by
        rw [Node.fieldPositions, ← Node.builtClasses_eq, findSome?_flatMap_eq]

theorem mem_fieldPositions_iff {root : Node} {q : Position} :
    q ∈ root.fieldPositions ↔
      ∃ p, root.holdsAt Node.isClassLike p = true ∧ q ∈ root.childPositions .fieldDecl p := by
  rw [Node.fieldPositions, ← Node.builtClasses_eq, List.mem_flatMap]
  simp only [(Node.perm_builtClasses root).mem_iff, Node.mem_classPositions_iff]

/-- A field of a class has a fault exactly if it does not bind one variable. -/
theorem bind_fieldFault?_eq {root : Node} {q : Position} (h : q ∈ root.fieldPositions) :
    (root.nodeAt? q).bind fieldFault?
      = ((root.nodeAt? q).filter Node.isMisbound).map fun field =>
          .fieldBindings field.bindingNames := by
  obtain ⟨p, -, hq⟩ := mem_fieldPositions_iff.1 h
  obtain ⟨i, -, hfield⟩ := Node.mem_childPositions_iff.1 hq
  rw [Node.holdsAt, Option.any_eq_true] at hfield
  obtain ⟨field, hnode, hkind⟩ := hfield
  rw [hnode, Option.bind_some, fieldFault?, hkind, Bool.true_and, Option.filter_some]
  cases field.isMisbound <;> rfl

theorem bind_fieldFault?_eq_some_iff {root : Node} {q : Position} {fault : BuildFault}
    (h : q ∈ root.fieldPositions) :
    (root.nodeAt? q).bind fieldFault? = some fault ↔
      ∃ field, root.nodeAt? q = some field ∧ field.isMisbound = true ∧
        fault = .fieldBindings field.bindingNames := by
  rw [bind_fieldFault?_eq h, Option.map_eq_some_iff]
  simp only [Option.filter_eq_some_iff, and_assoc, @eq_comm _ fault]

theorem bind_fieldFault?_eq_none_iff {root : Node} {q : Position} (h : q ∈ root.fieldPositions) :
    (root.nodeAt? q).bind fieldFault? = none ↔ root.holdsAt Node.isMisbound q = false := by
  rw [bind_fieldFault?_eq h, Option.map_eq_none_iff, Option.filter_eq_none_iff, Node.holdsAt]
  cases root.nodeAt? q <;> simp

/-- A build fails with the names of the variables of the first field that does not bind one. -/
theorem fragments_eq_error_iff_isFirstMisbound {root : Node} {fault : BuildFault} :
    (fragments none root).result = .error fault ↔
      ∃ field, root.IsFirstMisbound field ∧ fault = .fieldBindings field.bindingNames := by
  rw [result_fragments, faultOr_eq_error_iff, fault?_processed, List.findSome?_eq_some_iff]
  constructor
  · rintro ⟨front, q, back, hsplit, hq, hfront⟩
    have hmem : ∀ other ∈ front ++ q :: back, other ∈ root.fieldPositions := by simp [hsplit]
    obtain ⟨field, hnode, hmisbound, rfl⟩ :=
      (bind_fieldFault?_eq_some_iff (hmem q (by simp))).1 hq
    refine ⟨field, ⟨front, q, back, hsplit, hnode, hmisbound, ?_⟩, rfl⟩
    intro earlier hearlier
    exact (bind_fieldFault?_eq_none_iff (hmem earlier (by simp [hearlier]))).1
      (hfront earlier hearlier)
  · rintro ⟨field, ⟨front, q, back, hsplit, hnode, hmisbound, hfront⟩, rfl⟩
    have hmem : ∀ other ∈ front ++ q :: back, other ∈ root.fieldPositions := by simp [hsplit]
    refine ⟨front, q, back, hsplit, ?_, ?_⟩
    · exact (bind_fieldFault?_eq_some_iff (hmem q (by simp))).2 ⟨field, hnode, hmisbound, rfl⟩
    · intro earlier hearlier
      exact (bind_fieldFault?_eq_none_iff (hmem earlier (by simp [hearlier]))).2
        (hfront earlier hearlier)

/-- A build fails exactly if some class has a field that does not bind one variable. -/
theorem exists_error_iff_misbound {root : Node} :
    (∃ fault, (fragments none root).result = .error fault) ↔
      ∃ p decl field, root.nodeAt? p = some decl ∧ decl.isClassLike = true ∧
        field ∈ decl.children ∧ field.kind = .fieldDecl ∧ field.bindings.length ≠ 1 := by
  have hsome : (∃ fault, (fragments none root).result = .error fault) ↔
      ∃ q ∈ root.fieldPositions, ∃ fault, (root.nodeAt? q).bind fieldFault? = some fault := by
    simp only [result_fragments, faultOr_eq_error_iff, fault?_processed,
      ← Option.isSome_iff_exists, List.findSome?_isSome_iff]
  rw [hsome]
  constructor
  · rintro ⟨q, hq, fault, hfault⟩
    obtain ⟨field, hfield, hmisbound, -⟩ := (bind_fieldFault?_eq_some_iff hq).1 hfault
    obtain ⟨p, hclass, hchild⟩ := mem_fieldPositions_iff.1 hq
    obtain ⟨i, rfl, hkind⟩ := Node.mem_childPositions_iff.1 hchild
    rw [Node.holdsAt, Option.any_eq_true] at hclass
    obtain ⟨decl, hdecl, hclass⟩ := hclass
    rw [Node.holdsAt, hfield] at hkind
    rw [Node.nodeAt?_concat hdecl] at hfield
    refine ⟨p, decl, field, hdecl, hclass, List.mem_of_getElem? hfield, ?_, ?_⟩
    · simpa [Node.isOf] using hkind
    · simpa [Node.isMisbound] using hmisbound
  · rintro ⟨p, decl, field, hdecl, hclass, hmem, hkind, hlength⟩
    obtain ⟨i, hi⟩ := List.mem_iff_getElem?.1 hmem
    have hfield : root.nodeAt? (p ++ [i]) = some field := by
      rw [Node.nodeAt?_concat hdecl, hi]
    have hq : p ++ [i] ∈ root.fieldPositions := by
      refine mem_fieldPositions_iff.2 ⟨p, ?_, Node.mem_childPositions_iff.2 ⟨i, rfl, ?_⟩⟩
      · rw [Node.holdsAt, hdecl]
        exact hclass
      · rw [Node.holdsAt, hfield]
        exact decide_eq_true hkind
    have hmisbound : field.isMisbound = true := decide_eq_true hlength
    exact ⟨p ++ [i], hq, _, (bind_fieldFault?_eq_some_iff hq).2 ⟨field, hfield, hmisbound, rfl⟩⟩

/-- The fault of a field tells how many variables it binds, and their names. -/
theorem message_fieldBindings (field : Node) :
    (BuildFault.fieldBindings field.bindingNames).message
      = "builder precondition violated at field `" ++ ", ".intercalate field.bindingNames
          ++ "`: field declaration binds " ++ toString field.bindings.length
          ++ " variables, expected exactly one" := by
  have hlength : field.bindings.length = field.bindingNames.length := (List.length_map _).symm
  have hlead : "builder precondition violated at " ++ Kind.fieldDecl.display ++ " `"
      = "builder precondition violated at field `" := by decide
  rw [hlength, ← hlead]
  unfold BuildFault.message
  with_reducible rfl

/-! ## The only fragment -/

/-- A build of one namespace takes the fragment if there is only one. -/
theorem result_single (patience : Option Nat) (root : Node) :
    (single patience root).result
      = match (fragments patience root).result with
        | .ok [space] => .ok space
        | .ok spaces => .error (.namespaceCount spaces.length)
        | .error fault => .error fault := by
  rw [single, Traced.result_bind]
  rcases (fragments patience root).result with fault | _ | ⟨space, _ | ⟨other, others⟩⟩
  · rfl
  · rfl
  · rfl
  · rfl

/-- A build that succeeds yields at least one fragment. -/
theorem fragments_ne_nil {patience : Option Nat} {root : Node} {spaces : List Namespace}
    (h : (fragments patience root).result = .ok spaces) : spaces ≠ [] := by
  have hscopes : root.scopes ≠ [] := by
    rw [Node.scopes]
    split
    case isTrue hspaces =>
      intro hnil
      simp [hnil] at hspaces
    case isFalse => exact List.cons_ne_nil _ _
  rw [result_fragments] at h
  cases hfault : fault? patience root.processed with
  | some fault =>
    rw [hfault] at h
    cases h
  | none =>
    rw [hfault] at h
    obtain rfl := Except.ok.inj h
    simpa using hscopes

theorem single_eq_ok_iff {patience : Option Nat} {root : Node} {space : Namespace} :
    (single patience root).result = .ok space ↔
      (fragments patience root).result = .ok [space] := by
  rw [result_single]
  rcases (fragments patience root).result with fault | _ | ⟨first, _ | ⟨other, others⟩⟩
  · simp
  · simp
  · simp
  · simp

/-- Without cancellation a build fails exactly if some class, structure or interface, wherever it
stands, has a field that does not bind exactly one variable. The fault is that of the first such
field in the order of building, and it tells the number and the names of its variables. A build of
one namespace yields the fragment if there is exactly one, fails with the fault of the fragments if
they have one, and else tells that there are at least two. -/
theorem fragments_misbound (root : Node) :
    ((∃ fault, (fragments none root).result = .error fault) ↔
        ∃ p decl field, root.nodeAt? p = some decl ∧ decl.isClassLike = true ∧
          field ∈ decl.children ∧ field.kind = .fieldDecl ∧ field.bindings.length ≠ 1) ∧
      (∀ fault, (fragments none root).result = .error fault ↔
        ∃ field, root.IsFirstMisbound field ∧ fault = .fieldBindings field.bindingNames) ∧
      (∀ field : Node, (BuildFault.fieldBindings field.bindingNames).message
        = "builder precondition violated at field `" ++ ", ".intercalate field.bindingNames
            ++ "`: field declaration binds " ++ toString field.bindings.length
            ++ " variables, expected exactly one") ∧
      ∀ patience : Option Nat,
        (∀ space, (single patience root).result = .ok space ↔
            (fragments patience root).result = .ok [space]) ∧
          (∀ fault, (fragments patience root).result = .error fault →
            (single patience root).result = .error fault) ∧
          ∀ spaces, (fragments patience root).result = .ok spaces → spaces.length ≠ 1 →
            2 ≤ spaces.length ∧
              (single patience root).result = .error (.namespaceCount spaces.length) := by
  refine ⟨exists_error_iff_misbound, fun fault => fragments_eq_error_iff_isFirstMisbound,
    message_fieldBindings, ?_⟩
  intro patience
  refine ⟨fun space => single_eq_ok_iff, ?_, ?_⟩
  · intro fault hfault
    rw [result_single, hfault]
  · intro spaces hspaces hlength
    have hpos := List.length_pos_of_ne_nil (fragments_ne_nil hspaces)
    refine ⟨by omega, ?_⟩
    rw [result_single, hspaces]
    split
    case h_1 heq =>
      obtain rfl := Except.ok.inj heq
      exact absurd rfl hlength
    case h_2 heq => rw [Except.ok.inj heq]
    case h_3 heq => cases heq

/-- A tree whose fields do not bind one variable, but for one. The enumeration does not count, and
the class of the outer namespace is built before the structure in the inner one. -/
def misboundUnit : Node :=
  { kind := .namespaceDecl, name := "Outer", children := [
      { kind := .enumDecl, name := "E", children := [{ kind := .fieldDecl }] },
      { kind := .namespaceDecl, name := "Inner", children := [
          { kind := .structDecl, name := "S", children := [{ kind := .fieldDecl }] }] },
      { kind := .classDecl, name := "C", children := [
          { kind := .fieldDecl, children := [{ role := .binding, name := "only" }] },
          { kind := .fieldDecl, children := [
              { role := .binding, text := "a = 1" },
              { role := .binding, name := "b" }] }] }] }

theorem fragments_misbound_misboundUnit :
    misboundUnit.fieldPositions = [[2, 0], [2, 1], [1, 0, 0]] ∧
      (fragments none misboundUnit).result = .error (.fieldBindings ["a", "b"]) ∧
      (single none misboundUnit).result = .error (.fieldBindings ["a", "b"]) ∧
      (single none nestedUnit).result = .error (.namespaceCount 4) := by
  have hpositions : misboundUnit.fieldPositions = [[2, 0], [2, 1], [1, 0, 0]] := by decide
  obtain ⟨-, hfirst, -, hsingle⟩ := fragments_misbound misboundUnit
  obtain ⟨-, hfault, -⟩ := hsingle none
  obtain ⟨-, -, -, hnested⟩ := fragments_misbound nestedUnit
  obtain ⟨-, -, hcount⟩ := hnested none
  have hfails : (fragments none misboundUnit).result = .error (.fieldBindings ["a", "b"]) := by
    refine (hfirst _).2 ⟨_, ⟨[[2, 0]], [2, 1], [[1, 0, 0]], hpositions, rfl, ?_, ?_⟩, ?_⟩
    · decide
    · decide
    · decide +kernel
  exact ⟨hpositions, hfails, hfault _ hfails, (hcount nestedSpaces (by rfl) (by decide)).2⟩

end Build

end Recast
