import Recast.Proofs.Agreement
import Recast.Proofs.Cancellation

/-!
# Members and the nodes they are built from

Type declarations are collected from every depth of a tree, but the members of a class come from the
direct children of its declaration only: each sort of members is built from the children of one
kind, in their order (`forall₂_membersOf`). What is nested in a declaration plays no part in that:
without its other children and with empty bodies it has the same members, but for the accesses in
their bodies (`exists_classDecl_bare`).

A node of a member's kind whose parent declares a class is therefore built into one member of one
class. It is not lost, because every declaration is collected, and it is not built twice, because
no declaration is collected twice and each node has one parent (`members_of_fragments`).
-/

set_option autoImplicit false

namespace Recast

/-- The kinds of nodes that are built into members. -/
def memberKinds : List Kind :=
  [.fieldDecl, .propertyDecl, .indexerDecl, .methodDecl, .constructorDecl]

/-- Whether a node is of some kind. -/
def Node.isOf (kind : Kind) (node : Node) : Bool :=
  node.kind = kind

/-- Whether a node is a member of its parent, if that declares a class. -/
def Node.isMember (node : Node) : Bool :=
  node.kind ∈ memberKinds

/-- The kind of the nodes that a member is built from. -/
def Build.Member.kind : Build.Member → Kind
  | .ofField _ => .fieldDecl
  | .ofProperty _ => .propertyDecl
  | .ofIndexer _ => .indexerDecl
  | .ofMethod _ => .methodDecl
  | .ofConstructor _ => .constructorDecl

/-- The members of a class that are built from nodes of some kind. -/
def ClassDecl.membersOf (kind : Kind) (decl : ClassDecl) : List Build.Member :=
  match kind with
  | .fieldDecl => decl.fields.map .ofField
  | .propertyDecl => decl.properties.map .ofProperty
  | .indexerDecl => decl.indexers.map .ofIndexer
  | .methodDecl => decl.methods.map .ofMethod
  | .constructorDecl => decl.constructors.map .ofConstructor
  | _ => []

namespace Build

/-! ## Members of a class -/

/-- The member that a node is built into. -/
def BuildsMember (node : Node) (member : Member) : Prop :=
  ∃ built, member? node = some built ∧ built.result = .ok member

theorem isSome_member? (node : Node) : (member? node).isSome = node.isMember := by
  rw [member?, Node.isMember]
  cases node.kind <;> rfl

/-- A member is built from a node of its kind. -/
theorem BuildsMember.kind_eq {node : Node} {member : Member} (h : BuildsMember node member) :
    member.kind = node.kind := by
  obtain ⟨built, hbuilt, hresult⟩ := h
  rw [member?] at hbuilt
  split at hbuilt
  case h_6 => cases hbuilt
  all_goals
    rename_i hkind
    obtain rfl := Option.some.inj hbuilt
    obtain ⟨_, -, rfl⟩ := Traced.result_map_eq_ok_iff.1 hresult
    exact hkind.symm

/-- The members among some nodes are built from the nodes of their kinds, in order. -/
theorem members_eq_ok_iff {nodes : List Node} {built : List Member} :
    (members nodes).result = .ok built ↔
      List.Forall₂ BuildsMember (nodes.filter Node.isMember) built := by
  induction nodes generalizing built with
  | nil =>
    rw [members, List.filter_nil, List.forall₂_nil_left_iff]
    exact ⟨fun h => (Except.ok.inj h).symm, fun h => h ▸ rfl⟩
  | cons node nodes ih =>
    have hmember := isSome_member? node
    rw [members]
    cases hfirst : member? node with
    | none =>
      rw [hfirst] at hmember
      rw [List.filter_cons_of_neg (by simp [← hmember])]
      exact ih
    | some first =>
      rw [hfirst] at hmember
      rw [List.filter_cons_of_pos (by simp [← hmember]), Traced.result_cons_eq_ok_iff,
        List.forall₂_cons_left_iff]
      simp only [ih, BuildsMember, hfirst, Option.some.injEq, exists_eq_left']

theorem classDecl_eq_ok_iff {node : Node} {decl : ClassDecl} :
    (classDecl node).result = .ok decl ↔
      ∃ built, List.Forall₂ BuildsMember (node.children.filter Node.isMember) built ∧
        decl = classOf node.name (classBases node) built := by
  rw [classDecl, Traced.result_bind_eq_ok_iff]
  simp only [members_eq_ok_iff, Traced.result_bind_eq_ok_iff, Traced.result_report,
    Traced.result_pure, Except.ok.injEq]
  constructor
  · rintro ⟨built, hbuilt, -, -, rfl⟩
    exact ⟨built, hbuilt, rfl⟩
  · rintro ⟨built, hbuilt, rfl⟩
    exact ⟨built, hbuilt, (), trivial, rfl⟩

/-- The members of one kind are those among all members. -/
theorem membersOf_classOf {kind : Kind} (hkind : kind ∈ memberKinds) (name : String)
    (bases : List String) (built : List Member) :
    (classOf name bases built).membersOf kind = built.filter fun member => member.kind = kind := by
  simp only [memberKinds, List.mem_cons, List.not_mem_nil, or_false] at hkind
  rcases hkind with rfl | rfl | rfl | rfl | rfl
  all_goals
    simp only [ClassDecl.membersOf, classOf, List.map_filterMap]
    rw [← List.filterMap_eq_filter]
    refine List.filterMap_congr fun member _ => ?_
    cases member <;> rfl

/-- The members of one kind are built from the children of that kind, in child order. -/
theorem forall₂_membersOf {node : Node} {decl : ClassDecl} {kind : Kind}
    (hkind : kind ∈ memberKinds) (h : (classDecl node).result = .ok decl) :
    List.Forall₂ BuildsMember (node.children.filter (Node.isOf kind)) (decl.membersOf kind) := by
  obtain ⟨built, hbuilt, rfl⟩ := classDecl_eq_ok_iff.1 h
  rw [membersOf_classOf hkind]
  have hmembers : node.children.filter (Node.isOf kind)
      = (node.children.filter Node.isMember).filter (Node.isOf kind) := by
    rw [List.filter_filter]
    refine List.filter_congr fun child _ => ?_
    by_cases hchild : child.kind = kind
    · simp [Node.isOf, Node.isMember, hchild, hkind]
    · simp [Node.isOf, hchild]
  rw [hmembers]
  refine List.rel_filter (fun child member hmember => ?_) hbuilt
  simp only [Node.isOf, hmember.kind_eq]

end Build

/-! ## What is nested in a declaration -/

mutual

/-- A node in which all bodies are empty, however deep they stand. -/
def Node.emptied : Node → Node
  | ⟨kind, role, name, text, modifiers, attributes, hints, children⟩ =>
    ⟨kind, role, name, text, modifiers, attributes, hints, Node.emptiedAll children⟩

/-- Some children with empty bodies. -/
def Node.emptiedAll : List Node → List Node
  | [] => []
  | child :: children =>
    (if child.role = .body then child.label else child.emptied) :: Node.emptiedAll children

end

namespace Node

/-- A child with empty bodies: it may be a body itself. -/
def emptiedChild (child : Node) : Node :=
  if child.role = .body then child.label else child.emptied

/-- A declaration without what is nested in it: its members, with empty bodies. -/
def bare (node : Node) : Node :=
  { node with children := (node.children.filter isMember).map emptied }

theorem emptied_eq (node : Node) :
    node.emptied = { node with children := node.children.map emptiedChild } := by
  have hall : ∀ children : List Node, emptiedAll children = children.map emptiedChild := by
    intro children
    induction children with
    | nil => rfl
    | cons child children ih =>
      rw [emptiedAll, ih]
      rfl
  cases node
  rw [emptied, hall]

/-- Emptying the bodies of a node leaves what it shows. -/
theorem face_emptied (node : Node) : node.emptied.face = node.face := by
  rw [emptied_eq]
  rfl

theorem kind_emptied (node : Node) : node.emptied.kind = node.kind :=
  (face_eq_iff.1 (face_emptied node)).1

theorem face_emptiedChild (child : Node) : child.emptiedChild.face = child.face := by
  rw [emptiedChild]
  split
  · rfl
  · exact face_emptied child

theorem childrenAs_emptied (node : Node) (role : Role) :
    node.emptied.childrenAs role = (node.childrenAs role).map emptiedChild := by
  rw [emptied_eq, childrenAs, childrenAs, List.filter_map]
  congr 1
  refine List.filter_congr fun child _ => ?_
  rw [Function.comp_apply, (face_eq_iff.1 (face_emptiedChild child)).2.1]

theorem childAs?_emptied (node : Node) (role : Role) :
    node.emptied.childAs? role = (node.childAs? role).map emptiedChild := by
  rw [childAs?_eq_head?, childAs?_eq_head?, childrenAs_emptied, List.head?_map]

theorem textAs_emptied (node : Node) (role : Role) :
    node.emptied.textAs role = node.textAs role := by
  have htext : ∀ child : Node, child.emptiedChild.text = child.text :=
    fun child => (face_eq_iff.1 (face_emptiedChild child)).2.2.2.1
  rw [textAs, textAs, childAs?_emptied, Option.map_map]
  simp only [Function.comp_def, htext]

end Node

/-- A body without the member accesses in it. -/
def Body.textOnly (body : Body) : Body :=
  { body with invocations := [] }

/-- An accessor without the member accesses in its body. -/
def Accessor.textOnly (accessor : Accessor) : Accessor :=
  { accessor with body := accessor.body.textOnly }

/-- A property or indexer without the member accesses in its bodies. -/
def Property.textOnly (property : Property) : Property :=
  { property with
    getter := property.getter.map Accessor.textOnly
    setter := property.setter.map Accessor.textOnly }

/-- A method or constructor without the member accesses in its body. -/
def Routine.textOnly (routine : Routine) : Routine :=
  { routine with body := routine.body.textOnly }

/-- A member without the member accesses in its bodies. -/
def Build.Member.textOnly : Build.Member → Build.Member
  | .ofField field => .ofField field
  | .ofProperty property => .ofProperty property.textOnly
  | .ofIndexer indexer => .ofIndexer indexer.textOnly
  | .ofMethod method => .ofMethod method.textOnly
  | .ofConstructor constructor => .ofConstructor constructor.textOnly

namespace Build

theorem entity_emptied (node : Node) : entity node.emptied = entity node := by
  obtain ⟨-, -, hname, -, hmodifiers, hattributes⟩ := Node.face_eq_iff.1 (Node.face_emptied node)
  simp only [entity, flags, Node.has, Node.textAs_emptied, hname, hmodifiers, hattributes]

theorem parameters_emptied (node : Node) : parameters node.emptied = parameters node := by
  rw [parameters, parameters, Node.childrenAs_emptied, List.map_map]
  refine List.map_congr_left fun child hchild => ?_
  -- A parameter is no body, so its own children are emptied.
  have hrole : child.role ≠ .body := by
    have hparameter : child.role = .parameter := by simpa using (List.mem_filter.1 hchild).2
    simp [hparameter]
  obtain ⟨-, -, hname, htext, -, -⟩ := Node.face_eq_iff.1 (Node.face_emptied child)
  rw [Function.comp_apply, Node.emptiedChild, if_neg hrole, parameter, parameter, hname, htext,
    Node.textAs_emptied]

theorem body_emptied (node : Node) : body node.emptied = (body node).textOnly := by
  rw [body, body, Node.childAs?_emptied]
  cases hblock : node.childAs? .body with
  | none => rfl
  | some block =>
    have hrole : block.role = .body := by simpa using List.find?_some hblock
    rw [Option.map_some, Node.emptiedChild, if_pos hrole]
    rfl

/-- The accessor of a node with some role, without its reports. -/
def accessorOf? (node : Node) (role : Role) : Option Accessor :=
  (node.childAs? role).map fun child => { entity := entity child, body := body child }

theorem result_accessorAs (node : Node) (role : Role) :
    (accessorAs node role).result = .ok (accessorOf? node role) := by
  rw [accessorAs, accessorOf?]
  cases node.childAs? role <;> rfl

theorem accessorOf?_emptied (node : Node) {role : Role} (hrole : role ≠ .body) :
    accessorOf? node.emptied role = (accessorOf? node role).map Accessor.textOnly := by
  rw [accessorOf?, accessorOf?, Node.childAs?_emptied, Option.map_map, Option.map_map]
  refine Option.map_congr fun child hchild => ?_
  have hchildRole : child.role = role := by simpa using List.find?_some hchild
  rw [Function.comp_apply, Node.emptiedChild, if_neg (hchildRole ▸ hrole), entity_emptied,
    body_emptied]
  rfl

theorem property_emptied (node : Node) :
    (property node.emptied).result = Property.textOnly <$> (property node).result := by
  have hresult : ∀ node, (property node).result
      = .ok { entity := entity node, parameters := parameters node,
              getter := accessorOf? node .getter, setter := accessorOf? node .setter } := by
    intro node
    simp only [property, Traced.result_bind, result_accessorAs]
    rfl
  rw [hresult, hresult, entity_emptied, parameters_emptied, accessorOf?_emptied node (by decide),
    accessorOf?_emptied node (by decide)]
  rfl

theorem routine_emptied (node : Node) :
    (routine node.emptied).result = Routine.textOnly <$> (routine node).result := by
  have hresult : ∀ node, (routine node).result
      = .ok { entity := entity node, parameters := parameters node, body := body node } :=
    fun _ => rfl
  rw [hresult, hresult, entity_emptied, parameters_emptied, body_emptied]
  rfl

theorem field_emptied (node : Node) : (field node.emptied).result = (field node).result := by
  have hbindings : (node.emptied.childrenAs .binding).map (fun child => Code.cutFirst child.source)
      = (node.childrenAs .binding).map fun child => Code.cutFirst child.source := by
    rw [Node.childrenAs_emptied, List.map_map]
    refine List.map_congr_left fun child _ => ?_
    obtain ⟨-, -, hname, htext, -, -⟩ := Node.face_eq_iff.1 (Node.face_emptiedChild child)
    rw [Function.comp_apply, Node.source, Node.source, hname, htext]
  have hentity : ∀ node, (tracedEntity node).result = .ok (entity node) := fun _ => rfl
  rw [field, field, Traced.result_bind, Traced.result_bind, hbindings, hentity, hentity,
    entity_emptied]

/-- A sort of members whose parts are built alike is built alike. -/
theorem result_make_textOnly {α : Type} {make : α → Member} {textOnly : α → α}
    {x y : Traced BuildFault α} {member : Member} (hxy : y.result = textOnly <$> x.result)
    (hmake : ∀ a, (make a).textOnly = make (textOnly a)) (hx : (make <$> x).result = .ok member) :
    (make <$> y).result = .ok member.textOnly := by
  obtain ⟨a, ha, rfl⟩ := Traced.result_map_eq_ok_iff.1 hx
  rw [ha] at hxy
  exact Traced.result_map_eq_ok_iff.2 ⟨textOnly a, hxy, (hmake a).symm⟩

/-- What stands in the bodies of a member has an effect on the accesses in them only. -/
theorem BuildsMember.emptied {node : Node} {member : Member} (h : BuildsMember node member) :
    BuildsMember node.emptied member.textOnly := by
  have hfield : (field node.emptied).result = id <$> (field node).result := by
    rw [field_emptied, id_map]
  obtain ⟨built, hbuilt, hresult⟩ := h
  rw [BuildsMember, member?, Node.kind_emptied]
  rw [member?] at hbuilt
  split at hbuilt
  case h_6 => cases hbuilt
  all_goals obtain rfl := Option.some.inj hbuilt
  case h_1 => exact ⟨_, rfl, result_make_textOnly hfield (fun _ => rfl) hresult⟩
  case h_2 => exact ⟨_, rfl, result_make_textOnly (property_emptied node) (fun _ => rfl) hresult⟩
  case h_3 => exact ⟨_, rfl, result_make_textOnly (property_emptied node) (fun _ => rfl) hresult⟩
  case h_4 => exact ⟨_, rfl, result_make_textOnly (routine_emptied node) (fun _ => rfl) hresult⟩
  case h_5 => exact ⟨_, rfl, result_make_textOnly (routine_emptied node) (fun _ => rfl) hresult⟩

theorem filter_children_bare (node : Node) :
    node.bare.children.filter Node.isMember = (node.children.filter Node.isMember).map
      Node.emptied := by
  refine List.filter_eq_self.2 fun child hchild => ?_
  obtain ⟨member, hmember, rfl⟩ := List.mem_map.1 hchild
  rw [Node.isMember, Node.kind_emptied]
  exact (List.mem_filter.1 hmember).2

/-- Without what is nested in its declaration a class has the same members of each kind, but for the
accesses in their bodies. -/
theorem exists_classDecl_bare {node : Node} {decl : ClassDecl}
    (h : (classDecl node).result = .ok decl) :
    ∃ bareDecl, (classDecl node.bare).result = .ok bareDecl ∧
      ∀ kind ∈ memberKinds,
        bareDecl.membersOf kind = (decl.membersOf kind).map Member.textOnly := by
  obtain ⟨built, hbuilt, rfl⟩ := classDecl_eq_ok_iff.1 h
  refine ⟨_, classDecl_eq_ok_iff.2 ⟨built.map Member.textOnly, ?_, rfl⟩, ?_⟩
  · rw [filter_children_bare, List.forall₂_map_left_iff, List.forall₂_map_right_iff]
    exact hbuilt.imp fun _ _ => BuildsMember.emptied
  · intro kind hkind
    rw [membersOf_classOf hkind, membersOf_classOf hkind, List.filter_map]
    congr 1
    refine List.filter_congr fun member _ => ?_
    cases member <;> rfl

end Build

/-! ## Positions of members -/

namespace Node

/-- The positions of the children of some kind of the node at a position, in order. -/
def childPositions (root : Node) (kind : Kind) (p : Position) : List Position :=
  match root.nodeAt? p with
  | some node => (node.children.zipIdx.filter fun entry => entry.1.isOf kind).map fun entry =>
      p ++ [entry.2]
  | none => []

/-- Whether the parent of a position declares a class; the root has no parent. -/
def inClass (root : Node) (q : Position) : Bool :=
  !q.isEmpty && root.holdsAt isClassLike q.dropLast

/-- The positions of the nodes of some kind whose parent declares a class. -/
def memberPositions (root : Node) (kind : Kind) : List Position :=
  root.positions.filter fun q => root.holdsAt (isOf kind) q && root.inClass q

/-- The positions of all declarations of classes. -/
def classPositions (root : Node) : List Position :=
  root.positions.filter (root.holdsAt isClassLike)

variable {root : Node} {kind : Kind}

/-- A child is looked up by its index in its parent. -/
theorem nodeAt?_concat {node : Node} {p : Position} (hnode : root.nodeAt? p = some node) (i : Nat) :
    root.nodeAt? (p ++ [i]) = node.children[i]? := by
  rw [nodeAt?_append, hnode, Option.bind_some, nodeAt?]
  cases node.children[i]? <;> rfl

/-- The nodes at the positions of the children of some kind are these children. -/
theorem nodesAt_childPositions {node : Node} {p : Position} (hnode : root.nodeAt? p = some node) :
    root.nodesAt (root.childPositions kind p) = node.children.filter (isOf kind) := by
  simp only [childPositions, hnode, nodesAt, List.filterMap_map]
  have hlookup : ∀ entry ∈ node.children.zipIdx.filter fun entry => entry.1.isOf kind,
      (root.nodeAt? ∘ fun entry : Node × Nat => p ++ [entry.2]) entry = some entry.1 := by
    intro entry hentry
    rw [Function.comp_apply, nodeAt?_concat hnode]
    exact getElem?_of_mem_zipIdx (List.mem_filter.1 hentry).1
  calc (node.children.zipIdx.filter fun entry => entry.1.isOf kind).filterMap
        (root.nodeAt? ∘ fun entry => p ++ [entry.2])
      = (node.children.zipIdx.filter fun entry => entry.1.isOf kind).map Prod.fst := by
        rw [List.filterMap_congr hlookup, List.filterMap_eq_map']
    _ = (node.children.zipIdx.map Prod.fst).filter (isOf kind) := by
        rw [List.filter_map]
        rfl
    _ = node.children.filter (isOf kind) := by
        rw [List.zipIdx_map_fst]

theorem mem_childPositions_iff {p q : Position} :
    q ∈ root.childPositions kind p ↔ ∃ i, q = p ++ [i] ∧ root.holdsAt (isOf kind) q = true := by
  rw [childPositions]
  cases hnode : root.nodeAt? p with
  | none =>
    -- Below a position without a node there is none either.
    have hbelow : ∀ i, root.holdsAt (isOf kind) (p ++ [i]) = false := by
      intro i
      rw [holdsAt, nodeAt?_append, hnode]
      rfl
    constructor
    · intro h
      cases h
    · rintro ⟨i, rfl, h⟩
      rw [hbelow] at h
      cases h
  | some node =>
    simp only [List.mem_map, List.mem_filter]
    constructor
    · rintro ⟨entry, ⟨hentry, hkind⟩, rfl⟩
      refine ⟨entry.2, rfl, ?_⟩
      rw [holdsAt, nodeAt?_concat hnode, getElem?_of_mem_zipIdx hentry]
      exact hkind
    · rintro ⟨i, rfl, h⟩
      rw [holdsAt, nodeAt?_concat hnode, Option.any_eq_true] at h
      obtain ⟨child, hchild, hkind⟩ := h
      exact ⟨(child, i), ⟨List.mem_zipIdx_iff_getElem?.2 hchild, hkind⟩, rfl⟩

theorem mem_positions_of_mem_childPositions {p q : Position} (h : q ∈ root.childPositions kind p) :
    q ∈ root.positions := by
  obtain ⟨_, -, hkind⟩ := mem_childPositions_iff.1 h
  exact mem_positions_of_holdsAt hkind

theorem nodup_childPositions (root : Node) (kind : Kind) (p : Position) :
    (root.childPositions kind p).Nodup := by
  rw [childPositions]
  cases root.nodeAt? p with
  | none => exact List.nodup_nil
  | some node =>
    refine List.pairwise_map.2 (((zipIdx_pairwise_lt node.children).filter _).imp ?_)
    intro first next hlt heq
    have hindex : first.2 = next.2 := by simpa using heq
    omega

theorem mem_classPositions_iff {p : Position} :
    p ∈ root.classPositions ↔ root.holdsAt isClassLike p = true := by
  rw [classPositions, List.mem_filter]
  exact ⟨fun h => h.2, fun h => ⟨mem_positions_of_holdsAt h, h⟩⟩

theorem mem_memberPositions_iff {q : Position} :
    q ∈ root.memberPositions kind ↔
      ∃ p ∈ root.classPositions, q ∈ root.childPositions kind p := by
  simp only [memberPositions, List.mem_filter, inClass, Bool.and_eq_true, mem_classPositions_iff,
    mem_childPositions_iff]
  constructor
  · rintro ⟨-, hkind, hne, hclass⟩
    have hconcat : q ≠ [] := by simpa using hne
    have hq := (List.dropLast_concat_getLast hconcat).symm
    exact ⟨q.dropLast, hclass, q.getLast hconcat, hq, hkind⟩
  · rintro ⟨p, hclass, i, rfl, hkind⟩
    exact ⟨mem_positions_of_holdsAt hkind, hkind, by simp, by simpa using hclass⟩

/-- Every node of a member's kind below a class is a child of one class. -/
theorem perm_flatMap_childPositions (root : Node) (kind : Kind) :
    (root.classPositions.flatMap (root.childPositions kind)).Perm (root.memberPositions kind) := by
  have hclasses : root.classPositions.Nodup := (nodup_positions root).filter _
  have hparts : (root.classPositions.flatMap (root.childPositions kind)).Nodup := by
    refine List.nodup_flatMap.2 ⟨fun p _ => nodup_childPositions root kind p, ?_⟩
    refine hclasses.imp ?_
    -- A position tells its parent.
    intro first next hne q hfirst hnext
    obtain ⟨i, hi, -⟩ := mem_childPositions_iff.1 hfirst
    obtain ⟨j, hj, -⟩ := mem_childPositions_iff.1 hnext
    exact hne (List.append_inj' (hi.symm.trans hj) rfl).1
  have hmembers : (root.memberPositions kind).Nodup := (nodup_positions root).filter _
  rw [List.perm_ext_iff_of_nodup hparts hmembers]
  intro q
  rw [List.mem_flatMap, mem_memberPositions_iff]

/-! ## The classes of a build -/

/-- The positions from which the classes of a build come, in the order of its fragments. -/
def builtClasses (root : Node) : List Position :=
  (root.owners.flatMap root.buildOrder).filter (root.holdsAt fun node => !node.isEnum)

/-- The owners of a tree share out all its declarations. -/
theorem perm_flatMap_owners (root : Node) :
    (root.owners.flatMap root.ownedDecls).Perm (root.positions.filter (root.holdsAt isDecl)) := by
  have hperm := perm_flatMap_ownedDecls root
  rw [owners]
  cases hunnamed : root.hasUnnamed with
  | true => exact hperm
  | false =>
    -- Without an unnamed scope no declaration is outside of all namespaces.
    have hloose : root.ownedDecls none = [] := by
      rw [hasUnnamed_eq] at hunnamed
      simp only [Bool.not_eq_false', Bool.and_eq_true, List.isEmpty_iff] at hunnamed
      exact hunnamed.1
    rw [List.flatMap_cons, hloose] at hperm
    exact hperm

/-- Enumerations apart, declarations are built in the order in which they are collected. -/
theorem filter_buildOrder (root : Node) (owner : Option Position) :
    (root.buildOrder owner).filter (root.holdsAt fun node => !node.isEnum)
      = (root.ownedDecls owner).filter (root.holdsAt fun node => !node.isEnum) := by
  have hnone : ∀ p ∈ (root.ownedDecls owner).filter (root.holdsAt isEnum),
      ¬root.holdsAt (fun node => !node.isEnum) p = true := by
    intro p hp hother
    have henum := (List.mem_filter.1 hp).2
    rw [holdsAt] at henum hother
    cases hnode : root.nodeAt? p with
    | none => simp [hnode] at henum
    | some node =>
      rw [hnode, Option.any_some] at henum hother
      simp [henum] at hother
  rw [buildOrder, List.filter_append, List.filter_eq_nil_iff.2 hnone, List.append_nil,
    List.filter_filter]
  simp only [Bool.and_self]

/-- The declarations that are no enumerations are those of classes. -/
theorem filter_filter_isDecl (root : Node) :
    (root.positions.filter (root.holdsAt isDecl)).filter (root.holdsAt fun node => !node.isEnum)
      = root.classPositions := by
  have hclass : ∀ node : Node, (!node.isEnum && node.isDecl) = node.isClassLike := by
    intro node
    rw [isClassLike, isEnum, isDecl]
    cases node.kind <;> rfl
  rw [List.filter_filter, classPositions]
  refine List.filter_congr fun p _ => ?_
  rw [holdsAt, holdsAt, holdsAt]
  cases root.nodeAt? p with
  | none => rfl
  | some node => exact hclass node

/-- The class declarations are taken owner by owner, each in the order in which they are
collected. -/
theorem builtClasses_eq (root : Node) :
    root.builtClasses = root.owners.flatMap fun owner =>
      (root.ownedDecls owner).filter (root.holdsAt fun node => !node.isEnum) := by
  rw [builtClasses, List.filter_flatMap]
  simp only [filter_buildOrder]

/-- A build takes every class declaration of its tree once. -/
theorem perm_builtClasses (root : Node) : root.builtClasses.Perm root.classPositions := by
  rw [builtClasses_eq, ← List.filter_flatMap, ← filter_filter_isDecl]
  exact (perm_flatMap_owners root).filter _

end Node

namespace Build

/-- A member that comes from the node at a position. -/
def BuiltMemberAt (root : Node) (q : Position) (member : Member) : Prop :=
  ∃ node, root.nodeAt? q = some node ∧ BuildsMember node member

/-- A class that comes from the declaration at a position: its members of each kind come from the
children of that kind, one by one and in order, and stay what they are without all that is nested in
the declaration and in their bodies. -/
structure IsClassAt (root : Node) (p : Position) (decl : ClassDecl) : Prop where
  builtAt : BuiltAt root p (.ofClass decl)
  members : ∀ kind ∈ memberKinds,
    List.Forall₂ (BuiltMemberAt root) (root.childPositions kind p) (decl.membersOf kind)
  bare : ∀ node, root.nodeAt? p = some node →
    ∃ bareDecl, (classDecl node.bare).result = .ok bareDecl ∧
      ∀ kind ∈ memberKinds, bareDecl.membersOf kind = (decl.membersOf kind).map Member.textOnly

theorem isClassAt_of_builtAt {root : Node} {p : Position} {decl : ClassDecl}
    (h : BuiltAt root p (.ofClass decl)) : IsClassAt root p decl := by
  obtain ⟨node, hnode, hbuilds⟩ := h
  cases hbuilds with
  | ofClass hclass hdecl =>
    refine ⟨⟨node, hnode, .ofClass hclass hdecl⟩, ?_, ?_⟩
    · intro kind hkind
      apply (forall₂_nodesAt fun q => Node.mem_positions_of_mem_childPositions).1
      rw [Node.nodesAt_childPositions hnode]
      exact forall₂_membersOf hkind hdecl
    · intro other hother
      obtain rfl : node = other := Option.some.inj (hnode.symm.trans hother)
      exact exists_classDecl_bare hdecl

/-- The classes among the types of a build come from the declarations that are no enumerations. -/
theorem forall₂_isClassAt {root : Node} {ps : List Position} {types : List TypeDecl}
    (h : List.Forall₂ (BuiltAt root) ps types) :
    List.Forall₂ (IsClassAt root) (ps.filter (root.holdsAt fun node => !node.isEnum))
      (types.filterMap TypeDecl.class?) := by
  induction h with
  | nil => exact .nil
  | @cons p type ps types hbuilt _ ih =>
    have htest : root.holdsAt (fun node => !node.isEnum) p = !type.isEnum := by
      obtain ⟨node, hnode, hbuilds⟩ := hbuilt
      rw [Node.holdsAt, hnode, hbuilds.isEnum_eq]
      rfl
    cases type with
    | ofEnum decl =>
      rw [List.filter_cons_of_neg (by simp [htest, TypeDecl.isEnum]), List.filterMap_cons_none rfl]
      exact ih
    | ofClass decl =>
      have hclass : TypeDecl.class? (.ofClass decl) = some decl := rfl
      rw [List.filter_cons_of_pos (by simp [htest, TypeDecl.isEnum]),
        List.filterMap_cons_some hclass]
      exact .cons (isClassAt_of_builtAt hbuilt) ih

theorem forall₂_builtClasses {root : Node} {spaces : List Namespace}
    (h : (fragments none root).result = .ok spaces) :
    List.Forall₂ (IsClassAt root) root.builtClasses (spaces.flatMap Namespace.classes) := by
  have htypes : List.Forall₂ (BuiltAt root) (root.owners.flatMap root.buildOrder)
      (spaces.flatMap Namespace.types) :=
    List.rel_flatMap (fragments_eq_ok_iff.1 h) fun _ _ hspace => hspace.types
  have hclasses : spaces.flatMap Namespace.classes
      = (spaces.flatMap Namespace.types).filterMap TypeDecl.class? := by
    rw [List.filterMap_flatMap]
    rfl
  rw [hclasses]
  exact forall₂_isClassAt htypes

/-- How the classes of a build account for the members of its tree: they come from all class
declarations, each taken once, and the children of the members' kinds that these declarations have
are all nodes of these kinds below class declarations. -/
structure AccountsFor (root : Node) (ps : List Position) (decls : List ClassDecl) : Prop where
  classes : List.Forall₂ (IsClassAt root) ps decls
  classes_perm : ps.Perm root.classPositions
  members_perm : ∀ kind ∈ memberKinds,
    (ps.flatMap (root.childPositions kind)).Perm (root.memberPositions kind)

/-- The members of some kind of all classes in some fragments. -/
def membersIn (kind : Kind) (spaces : List Namespace) : List Member :=
  (spaces.flatMap Namespace.classes).flatMap (ClassDecl.membersOf kind)

/-- No member is lost and none is given to two classes: the classes of a build have as many members
of each kind as there are nodes of that kind below class declarations, and the members of a class
come one by one from the children of its own declaration. -/
theorem members_of_fragments (patience : Option Nat) (root : Node) (spaces : List Namespace)
    (h : (fragments patience root).result = .ok spaces) :
    (∀ kind ∈ memberKinds, (membersIn kind spaces).length = (root.memberPositions kind).length) ∧
      ∃ ps, AccountsFor root ps (spaces.flatMap Namespace.classes) := by
  have hclasses := forall₂_builtClasses (fragments_none_eq_ok h)
  have hmembers : ∀ kind, (root.builtClasses.flatMap (root.childPositions kind)).Perm
      (root.memberPositions kind) := by
    intro kind
    exact ((Node.perm_builtClasses root).flatMap_right _).trans
      (Node.perm_flatMap_childPositions root kind)
  refine ⟨?_, root.builtClasses, hclasses, Node.perm_builtClasses root, fun kind _ => hmembers kind⟩
  intro kind hkind
  -- Over all classes the members still correspond to the children one by one.
  have hall : List.Forall₂ (BuiltMemberAt root)
      (root.builtClasses.flatMap (root.childPositions kind)) (membersIn kind spaces) :=
    List.rel_flatMap hclasses fun _ _ hclass => hclass.members kind hkind
  calc (membersIn kind spaces).length
      = (root.builtClasses.flatMap (root.childPositions kind)).length := hall.length_eq.symm
    _ = (root.memberPositions kind).length := (hmembers kind).length_eq

/-- A class with a structure inside it and a class inside the body of its method, all with members,
behind a method that is in no class. -/
def layeredUnit : Node :=
  { kind := .compilationUnit, children := [
      { kind := .methodDecl, name := "stray" },
      { kind := .classDecl, name := "Outer", children := [
          { kind := .fieldDecl, children := [{ role := .binding, name := "size" }] },
          { kind := .structDecl, name := "Inner", children := [
              { kind := .methodDecl, name := "clear" },
              { kind := .indexerDecl, name := "this" }] },
          { kind := .methodDecl, name := "run", children := [
              { role := .body, text := "Add();", children := [
                  { kind := .memberReference, name := "Add" },
                  { kind := .classDecl, name := "Local", children := [
                      { kind := .constructorDecl, name := "Local" },
                      { kind := .methodDecl, name := "stop" }] }] }] }] }] }

/-- The only fragment of `layeredUnit`. -/
def layeredSpace : Namespace where
  types := [
    .ofClass {
      name := "Outer"
      fields := [{ entity := { name := "size" } }]
      methods := [
        { entity := { name := "run" }
          body :=
            { text := "Add();"
              invocations := [{ target := "", member := "Add", type := "NULL TYPE" }] } }] },
    .ofClass {
      name := "Inner"
      methods := [{ entity := { name := "clear" } }]
      indexers := [{ entity := { name := "this" } }] },
    .ofClass {
      name := "Local"
      constructors := [{ entity := { name := "Local" } }]
      methods := [{ entity := { name := "stop" } }] }]

theorem members_of_layeredUnit :
    (fragments (some 3) layeredUnit).result = .ok [layeredSpace] ∧
      (layeredUnit.memberPositions .methodDecl).length = 3 ∧
      (∀ kind ∈ memberKinds,
        (membersIn kind [layeredSpace]).length = (layeredUnit.memberPositions kind).length) ∧
      ∃ ps, AccountsFor layeredUnit ps ([layeredSpace].flatMap Namespace.classes) :=
  ⟨by rfl, by decide, members_of_fragments (some 3) layeredUnit [layeredSpace] (by rfl)⟩

end Build

end Recast
