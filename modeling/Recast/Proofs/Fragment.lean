import Mathlib.Data.List.Forall2
import Recast.Build.Fragment
import Recast.Proofs.Scope

/-!
# What a build yields

A build that is not cancelled yields one fragment for each scope and one type for each declaration
of it, in the order of building: `fragmentsOf_eq_ok_iff` reduces the success of a whole build to the
relation `Builds` between a declaration and its type. Together with the positions of scopes this
says where every type of a fragment comes from (`exists_sharesOut_of_fragments`).

The only fault of such a build is that of a field that does not bind one variable
(`failsByBindings_fragmentsOf`).
-/

set_option autoImplicit false

namespace Recast.Build

/-! ## Types -/

/-- The type that a declaration is built into. -/
inductive Builds : Node → TypeDecl → Prop
  | ofEnum {node : Node} : node.isEnum = true → Builds node (.ofEnum (enumDecl node))
  | ofClass {node : Node} {decl : ClassDecl} :
      node.isEnum = false → (classDecl node).result = .ok decl → Builds node (.ofClass decl)

theorem typeDecl_eq_ok_iff {node : Node} {type : TypeDecl} :
    (typeDecl node).result = .ok type ↔ Builds node type := by
  rw [typeDecl]
  cases hkind : node.isEnum with
  | true =>
    rw [if_pos (by simpa [Node.isEnum] using hkind)]
    constructor
    · intro h
      obtain rfl : TypeDecl.ofEnum (enumDecl node) = type := Except.ok.inj h
      exact .ofEnum hkind
    · intro h
      cases h with
      | ofEnum _ => rfl
      | ofClass hclass _ => simp [hkind] at hclass
  | false =>
    rw [if_neg (by simpa [Node.isEnum] using hkind), Traced.result_map_eq_ok_iff]
    constructor
    · rintro ⟨decl, hdecl, rfl⟩
      exact .ofClass hkind hdecl
    · intro h
      cases h with
      | ofEnum henum => simp [hkind] at henum
      | ofClass _ hdecl => exact ⟨_, hdecl, rfl⟩

/-- A declaration is built into a class or an enumeration by its kind. -/
theorem Builds.isEnum_eq {node : Node} {type : TypeDecl} (h : Builds node type) :
    type.isEnum = node.isEnum := by
  cases h with
  | ofEnum henum => exact henum.symm
  | ofClass hclass _ => exact hclass.symm

/-- A type has the name of its declaration. -/
theorem Builds.name_eq {node : Node} {type : TypeDecl} (h : Builds node type) :
    type.name = node.name := by
  cases h with
  | ofEnum _ => rfl
  | ofClass _ hdecl =>
    rw [classDecl, Traced.result_bind_eq_ok_iff] at hdecl
    -- The members and the report leave the name alone.
    obtain ⟨members, -, hdecl⟩ := hdecl
    obtain ⟨-, -, hdecl⟩ := Traced.result_bind_eq_ok_iff.1 hdecl
    obtain rfl := Except.ok.inj hdecl
    rfl

/-! ## Fragments -/

/-- A build of a list that builds one element after the other relates each element to its result. -/
theorem result_list_eq_ok_iff {α β : Type} {build : α → Traced BuildFault β}
    (buildAll : List α → Traced BuildFault (List β)) {related : α → β → Prop}
    (hnil : buildAll [] = pure [])
    (hcons : ∀ x xs, buildAll (x :: xs) = do return (← build x) :: (← buildAll xs))
    (hbuild : ∀ x y, (build x).result = .ok y ↔ related x y) {xs : List α} {ys : List β} :
    (buildAll xs).result = .ok ys ↔ List.Forall₂ related xs ys := by
  induction xs generalizing ys with
  | nil =>
    rw [hnil, List.forall₂_nil_left_iff]
    exact ⟨fun h => (Except.ok.inj h).symm, fun h => h ▸ rfl⟩
  | cons x xs ih =>
    rw [hcons, Traced.result_cons_eq_ok_iff, List.forall₂_cons_left_iff]
    simp only [hbuild, ih]

theorem typeDecls_eq_ok_iff {nodes : List Node} {types : List TypeDecl} :
    (typeDecls none nodes).result = .ok types ↔ List.Forall₂ Builds nodes types :=
  result_list_eq_ok_iff (typeDecls none) rfl (fun _ _ => rfl) fun _ _ => typeDecl_eq_ok_iff

/-- The fragment that a scope is built into. -/
structure BuildsScope (scope : Scope) (space : Namespace) : Prop where
  name_eq : space.name = scope.name
  types : List.Forall₂ Builds scope.ordered space.types

theorem fragment_eq_ok_iff {scope : Scope} {space : Namespace} :
    (fragment none scope).result = .ok space ↔ BuildsScope scope space := by
  rw [fragment, Traced.result_bind_eq_ok_iff]
  simp only [typeDecls_eq_ok_iff, Traced.result_bind_eq_ok_iff, Traced.result_report,
    Traced.result_pure, Except.ok.injEq]
  constructor
  · rintro ⟨types, htypes, -, -, rfl⟩
    exact ⟨rfl, htypes⟩
  · rintro ⟨hname, htypes⟩
    refine ⟨space.types, htypes, (), trivial, ?_⟩
    rw [← hname]

theorem fragmentsOf_eq_ok_iff {scopes : List Scope} {spaces : List Namespace} :
    (fragmentsOf none scopes).result = .ok spaces ↔ List.Forall₂ BuildsScope scopes spaces :=
  result_list_eq_ok_iff (fragmentsOf none) rfl (fun _ _ => rfl) fun _ _ => fragment_eq_ok_iff

/-! ## Success

Which types a build yields is decided declaration by declaration: `typeOf` is the type of a
declaration that can be built, and a build succeeds if all declarations can be built. -/

/-- The type of a declaration; a class without members if the declaration cannot be built. -/
def typeOf (node : Node) : TypeDecl :=
  match (typeDecl node).result with
  | .ok type => type
  | .error _ => .ofClass { name := node.name }

/-- The fragment of a scope whose declarations can be built. -/
def spaceOf (scope : Scope) : Namespace where
  name := scope.name
  types := scope.ordered.map typeOf

/-- Whether a declaration can be built. -/
def Buildable (node : Node) : Prop :=
  ∃ type, Builds node type

theorem builds_iff (node : Node) (type : TypeDecl) :
    Builds node type ↔ Buildable node ∧ type = typeOf node := by
  have htype : ∀ type, Builds node type → typeOf node = type := by
    intro type h
    rw [typeOf, typeDecl_eq_ok_iff.2 h]
  constructor
  · intro h
    exact ⟨⟨type, h⟩, (htype type h).symm⟩
  · rintro ⟨⟨built, h⟩, rfl⟩
    rw [htype built h]
    exact h

/-- A relation that is a function where it is defined relates a list to its image. -/
theorem forall₂_iff_map {α β : Type} {related : α → β → Prop} {defined : α → Prop} {f : α → β}
    (h : ∀ x y, related x y ↔ defined x ∧ y = f x) (xs : List α) (ys : List β) :
    List.Forall₂ related xs ys ↔ (∀ x ∈ xs, defined x) ∧ ys = xs.map f := by
  induction xs generalizing ys with
  | nil => simp
  | cons x xs ih =>
    rw [List.forall₂_cons_left_iff, List.forall_mem_cons, List.map_cons]
    simp only [h, ih]
    constructor
    · rintro ⟨_, _, ⟨hx, rfl⟩, ⟨hxs, rfl⟩, rfl⟩
      exact ⟨⟨hx, hxs⟩, rfl⟩
    · rintro ⟨⟨hx, hxs⟩, rfl⟩
      exact ⟨_, _, ⟨hx, rfl⟩, ⟨hxs, rfl⟩, rfl⟩

theorem mem_ordered_iff {scope : Scope} {node : Node} :
    node ∈ scope.ordered ↔ node ∈ scope.decls := by
  rw [Scope.ordered, List.mem_append, List.mem_filter, List.mem_filter, ← and_or_left]
  by_cases h : node.kind = .enumDecl <;> simp [h]

theorem buildsScope_iff (scope : Scope) (space : Namespace) :
    BuildsScope scope space ↔ (∀ node ∈ scope.decls, Buildable node) ∧ space = spaceOf scope := by
  have htypes : List.Forall₂ Builds scope.ordered space.types ↔
      (∀ node ∈ scope.ordered, Buildable node) ∧ space.types = scope.ordered.map typeOf :=
    forall₂_iff_map builds_iff scope.ordered space.types
  simp only [mem_ordered_iff] at htypes
  constructor
  · rintro ⟨hname, hbuilds⟩
    obtain ⟨hnodes, htypes⟩ := htypes.1 hbuilds
    exact ⟨hnodes, by rw [spaceOf, ← hname, ← htypes]⟩
  · rintro ⟨hnodes, rfl⟩
    exact ⟨rfl, htypes.2 ⟨hnodes, rfl⟩⟩

/-- A build of scopes succeeds if all their declarations can be built. -/
theorem fragmentsOf_eq_ok_iff_buildable {scopes : List Scope} {spaces : List Namespace} :
    (fragmentsOf none scopes).result = .ok spaces ↔
      (∀ scope ∈ scopes, ∀ node ∈ scope.decls, Buildable node) ∧ spaces = scopes.map spaceOf := by
  rw [fragmentsOf_eq_ok_iff]
  exact forall₂_iff_map buildsScope_iff scopes spaces

/-! ## Faults -/

/-- If a build fails, then because of the variables of a field. -/
def FailsByBindings {α : Type} (build : Traced BuildFault α) : Prop :=
  ∀ fault, build.result = .error fault → ∃ names, fault = .fieldBindings names

section Faults

variable {α β : Type}

theorem failsByBindings_of_ok {build : Traced BuildFault α} {a : α} (h : build.result = .ok a) :
    FailsByBindings build := by
  intro fault hfault
  rw [h] at hfault
  cases hfault

theorem failsByBindings_bind {build : Traced BuildFault α} {next : α → Traced BuildFault β}
    (hbuild : FailsByBindings build) (hnext : ∀ a, FailsByBindings (next a)) :
    FailsByBindings (build >>= next) := by
  intro fault hfault
  rcases Traced.result_bind_eq_error_iff.1 hfault with hfirst | ⟨a, -, hsecond⟩
  · exact hbuild fault hfirst
  · exact hnext a fault hsecond

theorem failsByBindings_map {build : Traced BuildFault α} (f : α → β)
    (hbuild : FailsByBindings build) : FailsByBindings (f <$> build) := by
  intro fault hfault
  rw [Traced.result_map] at hfault
  cases hresult : build.result with
  | error other =>
    rw [hresult] at hfault
    obtain rfl : other = fault := Except.error.inj hfault
    exact hbuild other hresult
  | ok a =>
    rw [hresult] at hfault
    cases hfault

theorem failsByBindings_cons {first : Traced BuildFault α} {rest : Traced BuildFault (List α)}
    (hfirst : FailsByBindings first) (hrest : FailsByBindings rest) :
    FailsByBindings (do return (← first) :: (← rest)) :=
  failsByBindings_bind hfirst fun _ =>
    failsByBindings_bind hrest fun _ => failsByBindings_of_ok rfl

theorem failsByBindings_list {build : α → Traced BuildFault β}
    (buildAll : List α → Traced BuildFault (List β)) (hnil : buildAll [] = pure [])
    (hcons : ∀ x xs, buildAll (x :: xs) = do return (← build x) :: (← buildAll xs))
    (hbuild : ∀ x, FailsByBindings (build x)) (xs : List α) : FailsByBindings (buildAll xs) := by
  induction xs with
  | nil =>
    rw [hnil]
    exact failsByBindings_of_ok rfl
  | cons x xs ih =>
    rw [hcons]
    exact failsByBindings_cons (hbuild x) ih

/-- A build that fails only by bindings fails so exactly if it does not succeed. -/
theorem exists_fieldBindings_iff {build : Traced BuildFault α} (h : FailsByBindings build) :
    (∃ names, build.result = .error (.fieldBindings names)) ↔ ¬∃ a, build.result = .ok a := by
  constructor
  · rintro ⟨names, hfault⟩ ⟨a, hok⟩
    rw [hok] at hfault
    cases hfault
  · intro hnot
    cases hresult : build.result with
    | ok a => exact absurd ⟨a, hresult⟩ hnot
    | error fault =>
      obtain ⟨names, rfl⟩ := h fault hresult
      exact ⟨names, rfl⟩

end Faults

theorem failsByBindings_field (node : Node) : FailsByBindings (field node) := by
  refine failsByBindings_bind (failsByBindings_of_ok rfl) fun entity => ?_
  split
  · exact failsByBindings_of_ok rfl
  · intro fault hfault
    exact ⟨_, (Except.error.inj hfault).symm⟩

theorem failsByBindings_accessorAs (node : Node) (role : Role) :
    FailsByBindings (accessorAs node role) := by
  rw [accessorAs]
  split
  · exact failsByBindings_map some (failsByBindings_of_ok rfl)
  · exact failsByBindings_of_ok rfl

theorem failsByBindings_member? {node : Node} {built : Traced BuildFault Member}
    (h : member? node = some built) : FailsByBindings built := by
  have hproperty : FailsByBindings (property node) := by
    refine failsByBindings_bind (failsByBindings_of_ok rfl) fun _ => ?_
    refine failsByBindings_bind (failsByBindings_accessorAs node .getter) fun _ => ?_
    refine failsByBindings_bind (failsByBindings_accessorAs node .setter) fun _ => ?_
    exact failsByBindings_of_ok rfl
  have hroutine : FailsByBindings (routine node) := failsByBindings_of_ok rfl
  rw [member?] at h
  split at h
  · obtain rfl := Option.some.inj h
    exact failsByBindings_map _ (failsByBindings_field node)
  · obtain rfl := Option.some.inj h
    exact failsByBindings_map _ hproperty
  · obtain rfl := Option.some.inj h
    exact failsByBindings_map _ hproperty
  · obtain rfl := Option.some.inj h
    exact failsByBindings_map _ hroutine
  · obtain rfl := Option.some.inj h
    exact failsByBindings_map _ hroutine
  · cases h

theorem failsByBindings_members (nodes : List Node) : FailsByBindings (members nodes) := by
  induction nodes with
  | nil => exact failsByBindings_of_ok rfl
  | cons node nodes ih =>
    rw [members]
    cases hbuilt : member? node with
    | none => exact ih
    | some built => exact failsByBindings_cons (failsByBindings_member? hbuilt) ih

theorem failsByBindings_typeDecl (node : Node) : FailsByBindings (typeDecl node) := by
  rw [typeDecl]
  split
  · exact failsByBindings_of_ok rfl
  · refine failsByBindings_map _ (failsByBindings_bind (failsByBindings_members _) fun _ => ?_)
    exact failsByBindings_of_ok rfl

theorem failsByBindings_typeDecls (nodes : List Node) : FailsByBindings (typeDecls none nodes) :=
  failsByBindings_list (typeDecls none) rfl (fun _ _ => rfl) failsByBindings_typeDecl nodes

theorem failsByBindings_fragment (scope : Scope) : FailsByBindings (fragment none scope) :=
  failsByBindings_bind (failsByBindings_typeDecls scope.ordered) fun _ => failsByBindings_of_ok rfl

/-- A build that is not cancelled fails by the variables of a field only. -/
theorem failsByBindings_fragmentsOf (scopes : List Scope) :
    FailsByBindings (fragmentsOf none scopes) :=
  failsByBindings_list (fragmentsOf none) rfl (fun _ _ => rfl) failsByBindings_fragment scopes

/-! ## Fragments by position -/

/-- The type of a fragment that comes from the declaration at a position. -/
def BuiltAt (root : Node) (p : Position) (type : TypeDecl) : Prop :=
  ∃ node, root.nodeAt? p = some node ∧ Builds node type

/-- What is built from the nodes at some positions is built from the positions. -/
theorem forall₂_nodesAt {β : Type} {builds : Node → β → Prop} {root : Node} {ps : List Position}
    {built : List β} (hps : ∀ p ∈ ps, p ∈ root.positions) :
    List.Forall₂ builds (root.nodesAt ps) built ↔
      List.Forall₂ (fun p b => ∃ node, root.nodeAt? p = some node ∧ builds node b) ps built := by
  -- Positions and nodes are compared through the nodes that are looked up.
  let builds? (node? : Option Node) (b : β) : Prop :=
    ∃ node, node? = some node ∧ builds node b
  calc List.Forall₂ builds (root.nodesAt ps) built
      ↔ List.Forall₂ builds? ((root.nodesAt ps).map some) built := by
        rw [List.forall₂_map_left_iff]
        simp only [builds?, Option.some.injEq, exists_eq_left']
    _ ↔ List.Forall₂ builds? (ps.map root.nodeAt?) built := by
        rw [Node.map_some_nodesAt hps]
    _ ↔ List.Forall₂ (fun p b => ∃ node, root.nodeAt? p = some node ∧ builds node b) ps built := by
        rw [List.forall₂_map_left_iff]

/-- The fragment of an owner has its full name, and its types are those of the declarations that it
owns, first the classes and then the enumerations. -/
structure IsFragmentOf (root : Node) (owner : Option Position) (space : Namespace) : Prop where
  name_eq : space.name = owner.map root.fullName
  types : List.Forall₂ (BuiltAt root) (root.buildOrder owner) space.types

theorem buildsScope_scopeOf_iff {root : Node} {owner : Option Position} {space : Namespace} :
    BuildsScope (root.scopeOf owner) space ↔ IsFragmentOf root owner space := by
  have hpositions : ∀ p ∈ root.buildOrder owner, p ∈ root.positions :=
    fun _ => Node.mem_positions_of_mem_buildOrder
  constructor
  · rintro ⟨hname, htypes⟩
    rw [Node.ordered_scopeOf] at htypes
    exact ⟨hname, (forall₂_nodesAt hpositions).1 htypes⟩
  · rintro ⟨hname, htypes⟩
    refine ⟨hname, ?_⟩
    rw [Node.ordered_scopeOf]
    exact (forall₂_nodesAt hpositions).2 htypes

/-- A build of a tree yields the fragments of its owners. -/
theorem fragments_eq_ok_iff {root : Node} {spaces : List Namespace} :
    (fragments none root).result = .ok spaces ↔
      List.Forall₂ (IsFragmentOf root) root.owners spaces := by
  rw [fragments, fragmentsOf_eq_ok_iff, Node.scopes_eq, List.forall₂_map_left_iff]
  simp only [buildsScope_scopeOf_iff]

/-- How fragments share out the declarations of a tree: an unnamed fragment may stand in front, and
the others belong to the namespaces of the tree in pre-order. -/
structure SharesOut (root : Node) (spaces unnamed named : List Namespace) : Prop where
  spaces_eq : spaces = unnamed ++ named
  named_eq : List.Forall₂ (fun p => IsFragmentOf root (some p)) root.spacePositions named
  unnamed_eq : ∀ space ∈ unnamed, IsFragmentOf root none space
  unnamed_length : unnamed.length ≤ 1
  unnamed_iff : unnamed ≠ [] ↔
    root.kind ≠ .namespaceDecl ∧
      ((∃ p, root.holdsAt Node.isDecl p = true ∧ root.enclosing p = []) ∨
        ∀ p, root.holdsAt Node.isSpace p = false)
  spaces_ne_nil : spaces ≠ []
  decls_perm : ((none :: root.spacePositions.map some).flatMap root.ownedDecls).Perm
    (root.positions.filter (root.holdsAt Node.isDecl))

theorem isSpace_eq_false_iff {node : Node} : node.isSpace = false ↔ node.kind ≠ .namespaceDecl := by
  simp [Node.isSpace]

/-- A build that succeeds shares the declarations of its tree out among its fragments. -/
theorem exists_sharesOut_of_fragments (root : Node) (spaces : List Namespace)
    (h : (fragments none root).result = .ok spaces) :
    ∃ unnamed named, SharesOut root spaces unnamed named := by
  rw [fragments_eq_ok_iff, Node.owners] at h
  have hcondition : root.hasUnnamed = true ↔ _ := Node.hasUnnamed_iff
  rw [isSpace_eq_false_iff] at hcondition
  have hperm := Node.perm_flatMap_ownedDecls root
  cases hunnamed : root.hasUnnamed with
  | true =>
    rw [hunnamed, if_pos rfl, List.singleton_append, List.forall₂_cons_left_iff] at h
    obtain ⟨space, named, hspace, hnamed, rfl⟩ := h
    rw [List.forall₂_map_left_iff] at hnamed
    refine ⟨[space], named, rfl, hnamed, ?_, Nat.le_refl 1, ?_, by simp, hperm⟩
    · intro other hother
      rw [List.mem_singleton.1 hother]
      exact hspace
    · rw [← hcondition, hunnamed]
      simp
  | false =>
    rw [hunnamed, if_neg Bool.false_ne_true, List.nil_append, List.forall₂_map_left_iff] at h
    refine ⟨[], spaces, rfl, h, by simp, Nat.zero_le 1, ?_, ?_, hperm⟩
    · rw [← hcondition, hunnamed]
      simp
    · -- Without an unnamed fragment the tree has a namespace, which has a fragment.
      rintro rfl
      rw [Node.hasUnnamed_eq, List.forall₂_nil_right_iff.1 h] at hunnamed
      simp at hunnamed

/-- A tree with a namespace inside a class, a class inside a class, a namespace inside another one
and an enumeration in front of a class. -/
def nestedUnit : Node :=
  { kind := .compilationUnit, children := [
      { kind := .classDecl, name := "Loose", children := [
          { kind := .namespaceDecl, name := "In", children := [
              { kind := .interfaceDecl, name := "I" }] }] },
      { kind := .namespaceDecl, name := "A", children := [
          { kind := .enumDecl, name := "E" },
          { kind := .namespaceDecl, name := "B", children := [
              { kind := .structDecl, name := "S" }] },
          { kind := .classDecl, name := "C", children := [
              { kind := .classDecl, name := "D" }] }] }] }

/-- The fragments of `nestedUnit`. -/
def nestedSpaces : List Namespace :=
  [{ name := none, types := [.ofClass { name := "Loose" }] },
    { name := some "In", types := [.ofClass { name := "I" }] },
    { name := some "A",
      types := [.ofClass { name := "C" }, .ofClass { name := "D" }, .ofEnum { name := "E" }] },
    { name := some "A.B", types := [.ofClass { name := "S" }] }]

theorem exists_sharesOut_of_nestedUnit :
    (fragments none nestedUnit).result = .ok nestedSpaces ∧
      ∃ unnamed named, SharesOut nestedUnit nestedSpaces unnamed named :=
  ⟨by rfl, exists_sharesOut_of_fragments nestedUnit nestedSpaces (by rfl)⟩

end Recast.Build
