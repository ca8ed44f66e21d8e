import Mathlib.Data.List.Nodup
import Mathlib.Data.Option.Basic
import Recast.Build.Scope
import Recast.Proofs.Position

/-!
# Scopes by position

Which namespace a type declaration belongs to, said of positions alone. The namespaces around a
position are the proper prefixes of it at which a namespace stands, from the outside in
(`Node.enclosing`); the last of them owns what stands there (`Node.owner?`). The full name of a
namespace joins the names of the namespaces around it and its own.

`scopes_eq` says that the scopes which are collected from a tree are those of its owners in
pre-order, each with the declarations that it owns, also in pre-order. `perm_flatMap_ownedDecls`
says that no declaration is lost or listed twice on the way.
-/

set_option autoImplicit false

namespace Recast.Node

/-- Whether a node is a namespace. -/
def isSpace (node : Node) : Bool :=
  node.kind = .namespaceDecl

/-- Whether a node declares a type. -/
def isDecl (node : Node) : Bool :=
  node.kind.isTypeDeclaration

/-- Whether a node declares an enumeration. -/
def isEnum (node : Node) : Bool :=
  node.kind = .enumDecl

theorem isDecl_eq_false_of_isSpace {node : Node} (h : node.isSpace = true) :
    node.isDecl = false := by
  have hkind : node.kind = .namespaceDecl := by simpa [isSpace] using h
  rw [isDecl, hkind]
  rfl

/-! ## The namespaces around a position -/

/-- The positions of the namespaces around a position, from the outside in. -/
def enclosing (root : Node) (p : Position) : List Position :=
  ((List.range p.length).map p.take).filter (root.holdsAt isSpace)

/-- The innermost namespace around a position, if there is one. -/
def owner? (root : Node) (p : Position) : Option Position :=
  (root.enclosing p).getLast?

/-- What encloses a position below a child is the root, if it is a namespace, and what encloses the
position inside the child. -/
theorem enclosing_cons {node child : Node} {i : Nat} (hchild : node.children[i]? = some child)
    (p : Position) :
    node.enclosing (i :: p)
      = (if node.isSpace then [[]] else []) ++ (child.enclosing p).map (i :: ·) := by
  -- The proper prefixes of `i :: p` are the empty one and `i` in front of those of `p`.
  have hprefixes : (List.range (i :: p).length).map (i :: p).take
      = [] :: ((List.range p.length).map p.take).map (i :: ·) := by
    rw [List.length_cons, List.range_succ_eq_map, List.map_cons, List.map_map, List.map_map]
    rfl
  have htest : (node.holdsAt isSpace ∘ fun q => i :: q) = child.holdsAt isSpace := by
    funext q
    exact holdsAt_cons hchild isSpace q
  rw [enclosing, hprefixes, List.filter_cons, List.filter_map, htest, holdsAt_nil]
  split <;> rfl

theorem owner?_cons {node child : Node} {i : Nat} (hchild : node.children[i]? = some child)
    (p : Position) :
    node.owner? (i :: p)
      = ((child.owner? p).map (i :: ·)).or (if node.isSpace then some [] else none) := by
  rw [owner?, enclosing_cons hchild, List.getLast?_append, List.getLast?_map, owner?]
  split <;> rfl

theorem owner?_eq_none_iff {root : Node} {p : Position} :
    root.owner? p = none ↔ root.enclosing p = [] :=
  List.getLast?_eq_none_iff

theorem mem_positions_of_holdsAt {root : Node} {test : Node → Bool} {p : Position}
    (h : root.holdsAt test p = true) : p ∈ root.positions := by
  rw [mem_positions_iff]
  rw [holdsAt, Option.any_eq_true] at h
  obtain ⟨node, hnode, -⟩ := h
  rw [hnode]
  rfl

/-! ## The declarations of an owner -/

/-- The positions of the declarations that a namespace owns, or that none does. -/
def ownedDecls (root : Node) (owner : Option Position) : List Position :=
  root.positions.filter fun p => root.holdsAt isDecl p && root.owner? p = owner

theorem mem_ownedDecls_iff {root : Node} {owner : Option Position} {p : Position} :
    p ∈ root.ownedDecls owner ↔ root.holdsAt isDecl p = true ∧ root.owner? p = owner := by
  rw [ownedDecls, List.mem_filter, Bool.and_eq_true, decide_eq_true_iff]
  constructor
  · exact fun h => h.2
  · exact fun h => ⟨mem_positions_of_holdsAt h.1, h⟩

/-- Every declaration in a namespace has an owner. -/
theorem ownedDecls_none_of_isSpace {node : Node} (h : node.isSpace = true) :
    node.ownedDecls none = [] := by
  rw [List.eq_nil_iff_forall_not_mem]
  intro p hp
  obtain ⟨hdecl, howner⟩ := mem_ownedDecls_iff.1 hp
  cases p with
  | nil =>
    rw [holdsAt_nil, isDecl_eq_false_of_isSpace h] at hdecl
    exact Bool.false_ne_true hdecl
  | cons i p =>
    cases hchild : node.children[i]? with
    | none => simp [holdsAt, nodeAt?, hchild] at hdecl
    | some child =>
      rw [owner?_cons hchild, if_pos h] at howner
      cases hown : child.owner? p <;> simp [hown] at howner

/-- The declarations of an owner, by the children of the root: a position below a child has the
owner that it has inside the child, or else the root, if it is a namespace. -/
theorem ownedDecls_eq (node : Node) (owner : Option Position) :
    node.ownedDecls owner
      = (if node.isDecl && none = owner then [[]] else []) ++
          node.children.zipIdx.flatMap fun entry =>
            (entry.1.positions.filter fun p => entry.1.holdsAt isDecl p &&
              ((entry.1.owner? p).map (entry.2 :: ·)).or
                (if node.isSpace then some [] else none) = owner).map (entry.2 :: ·) := by
  rw [ownedDecls, filter_positions]
  congr 1
  refine List.flatMap_congr fun entry hentry => ?_
  have hchild := getElem?_of_mem_zipIdx hentry
  simp only [holdsAt_cons hchild, owner?_cons hchild]

/-- Outside of a namespace, what has no owner below a child has none in the whole. -/
theorem ownedDecls_none_of_not_isSpace {node : Node} (h : node.isSpace = false) :
    node.ownedDecls none
      = (if node.isDecl then [[]] else []) ++ node.children.zipIdx.flatMap fun entry =>
          (entry.1.ownedDecls none).map (entry.2 :: ·) := by
  rw [ownedDecls_eq, h]
  simp [ownedDecls]

/-- A namespace owns what has no owner below its children. -/
theorem ownedDecls_some_nil {node : Node} (h : node.isSpace = true) :
    node.ownedDecls (some [])
      = node.children.zipIdx.flatMap fun entry =>
          (entry.1.ownedDecls none).map (entry.2 :: ·) := by
  have howner : ∀ (i : Nat) (owner : Option Position),
      (owner.map (i :: ·)).or (some []) = some [] ↔ owner = none := by
    intro i owner
    cases owner <;> simp
  rw [ownedDecls_eq, h]
  simp only [if_true, howner, reduceCtorEq, decide_false, Bool.and_false, Bool.false_eq_true,
    if_false, List.nil_append, ownedDecls]

/-- A namespace below a child owns what it owns inside the child. -/
theorem ownedDecls_some_cons {node child : Node} {i : Nat}
    (hchild : node.children[i]? = some child) (p : Position) :
    node.ownedDecls (some (i :: p)) = (child.ownedDecls (some p)).map (i :: ·) := by
  have howner : ∀ (j : Nat) (owner : Option Position),
      (owner.map (j :: ·)).or (if node.isSpace then some [] else none) = some (i :: p) ↔
        j = i ∧ owner = some p := by
    intro j owner
    cases owner <;> cases node.isSpace <;> simp
  rw [ownedDecls_eq, flatMap_zipIdx_eq_of_getElem? hchild]
  · simp only [howner, true_and, reduceCtorEq, decide_false, Bool.and_false, Bool.false_eq_true,
      if_false, List.nil_append, ownedDecls]
  · -- Below another child, no owner begins with the index of this one.
    intro entry _ hne
    simp [howner, hne]

/-! ## Full names -/

/-- The name of the node at a position. -/
def nameAt (root : Node) (p : Position) : String :=
  ((root.nodeAt? p).map Node.name).getD ""

/-- The names of the namespaces around a position and the name there, joined to `outer`. -/
def nameFrom (root : Node) (outer : String) (p : Position) : String :=
  ((root.enclosing p ++ [p]).map root.nameAt).foldl Scope.qualify outer

/-- The full name of the namespace at a position. -/
def fullName (root : Node) (p : Position) : String :=
  root.nameFrom "" p

@[simp] theorem nameFrom_nil (node : Node) (outer : String) :
    node.nameFrom outer [] = Scope.qualify outer node.name :=
  rfl

theorem nameAt_cons {node child : Node} {i : Nat} (hchild : node.children[i]? = some child)
    (p : Position) : node.nameAt (i :: p) = child.nameAt p := by
  rw [nameAt, nodeAt?_cons hchild, nameAt]

theorem nameFrom_cons {node child : Node} {i : Nat} (hchild : node.children[i]? = some child)
    (outer : String) (p : Position) :
    node.nameFrom outer (i :: p)
      = child.nameFrom (if node.isSpace then Scope.qualify outer node.name else outer) p := by
  have hnames : node.nameAt ∘ (fun q => i :: q) = child.nameAt := by
    funext q
    exact nameAt_cons hchild q
  have hlast : [i :: p] = [p].map fun q => i :: q := rfl
  rw [nameFrom, enclosing_cons hchild, List.append_assoc, hlast, ← List.map_append,
    List.map_append, List.map_map, hnames, List.foldl_append, nameFrom]
  congr 1
  split <;> rfl

/-! ## What is found in a tree -/

/-- The scope of the namespace at a position of a tree that stands inside the namespace `outer`. -/
def scopeAt (root : Node) (outer : String) (p : Position) : Scope where
  name := some (root.nameFrom outer p)
  decls := root.nodesAt (root.ownedDecls (some p))

theorem scopeAt_cons {node child : Node} {i : Nat} (hchild : node.children[i]? = some child)
    (outer : String) (p : Position) :
    node.scopeAt outer (i :: p)
      = child.scopeAt (if node.isSpace then Scope.qualify outer node.name else outer) p := by
  rw [scopeAt, nameFrom_cons hchild, ownedDecls_some_cons hchild, nodesAt_map_cons hchild, scopeAt]

theorem foundAll_decls (outer : String) (nodes : List Node) :
    (foundAll outer nodes).decls = nodes.flatMap fun node => (node.found outer).decls := by
  induction nodes with
  | nil => rfl
  | cons node nodes ih => rw [foundAll, Found.append, ih, List.flatMap_cons]

theorem foundAll_scopes (outer : String) (nodes : List Node) :
    (foundAll outer nodes).scopes = nodes.flatMap fun node => (node.found outer).scopes := by
  induction nodes with
  | nil => rfl
  | cons node nodes ih => rw [foundAll, Found.append, ih, List.flatMap_cons]

theorem found_of_isSpace {node : Node} (h : node.isSpace = true) (outer : String) :
    node.found outer
      = let inner := foundAll (Scope.qualify outer node.name) node.children
        { scopes :=
            { name := some (Scope.qualify outer node.name), decls := inner.decls }
              :: inner.scopes } := by
  have hkind : node.kind = .namespaceDecl := by simpa [isSpace] using h
  cases node
  simp only at hkind
  rw [found, if_pos hkind]

theorem found_of_not_isSpace {node : Node} (h : node.isSpace = false) (outer : String) :
    node.found outer
      = { decls := (if node.isDecl then [node] else []) ++ (foundAll outer node.children).decls
          scopes := (foundAll outer node.children).scopes } := by
  have hkind : node.kind ≠ .namespaceDecl := by simpa [isSpace] using h
  cases node
  simp only at hkind
  rw [found, if_neg hkind, isDecl]
  cases Kind.isTypeDeclaration _ <;> simp

/-- Numbering the children does not change what is collected from them. -/
theorem flatMap_children_eq {α : Type} (node : Node) (f : Node → List α) :
    node.children.flatMap f = node.children.zipIdx.flatMap fun entry => f entry.1 := by
  conv_lhs => rw [← List.zipIdx_map_fst 0 node.children, List.flatMap_map]

theorem nodesAt_append (root : Node) (ps qs : List Position) :
    root.nodesAt (ps ++ qs) = root.nodesAt ps ++ root.nodesAt qs :=
  List.filterMap_append

theorem nodesAt_flatMap_children (node : Node) (f : Node → List Position) :
    node.nodesAt (node.children.zipIdx.flatMap fun entry => (f entry.1).map (entry.2 :: ·))
      = node.children.flatMap fun child => child.nodesAt (f child) := by
  rw [nodesAt, List.filterMap_flatMap, flatMap_children_eq]
  refine List.flatMap_congr fun entry hentry => ?_
  exact nodesAt_map_cons (getElem?_of_mem_zipIdx hentry) (f entry.1)

/-- The declarations found in a tree are those without an owner in it. -/
theorem found_decls (node : Node) (outer : String) :
    (node.found outer).decls = node.nodesAt (node.ownedDecls none) := by
  induction node using Node.induction with
  | step node ih =>
    cases hspace : node.isSpace with
    | true =>
      rw [found_of_isSpace hspace, ownedDecls_none_of_isSpace hspace]
      rfl
    | false =>
      rw [found_of_not_isSpace hspace, ownedDecls_none_of_not_isSpace hspace, nodesAt_append,
        nodesAt_flatMap_children node fun child => child.ownedDecls none, foundAll_decls,
        List.flatMap_congr ih]
      split <;> rfl

/-- The scopes found in a tree are those of its namespaces, in pre-order. -/
theorem found_scopes (node : Node) (outer : String) :
    (node.found outer).scopes
      = (node.positions.filter (node.holdsAt isSpace)).map (node.scopeAt outer) := by
  induction node using Node.induction generalizing outer with
  | step node ih =>
    -- Below a child, the scope of a position is that of the position inside the child.
    have hbelow : ∀ inner, inner = (if node.isSpace then Scope.qualify outer node.name else outer) →
        (foundAll inner node.children).scopes
          = (node.children.zipIdx.flatMap fun entry =>
              (entry.1.positions.filter fun p => node.holdsAt isSpace (entry.2 :: p)).map
                (entry.2 :: ·)).map (node.scopeAt outer) := by
      intro inner hinner
      rw [foundAll_scopes, List.map_flatMap, flatMap_children_eq]
      refine List.flatMap_congr fun entry hentry => ?_
      have hchild := getElem?_of_mem_zipIdx hentry
      rw [ih entry.1 (mem_children_of_mem_zipIdx hentry), List.map_map]
      simp only [holdsAt_cons hchild]
      refine List.map_congr_left fun p _ => ?_
      rw [Function.comp_apply, scopeAt_cons hchild, hinner]
    rw [filter_positions, List.map_append, holdsAt_nil]
    cases hspace : node.isSpace with
    | true =>
      rw [found_of_isSpace hspace, ← hbelow _ (by rw [hspace])]
      simp only [if_true, List.map_cons, List.map_nil, List.singleton_append, List.cons.injEq,
        and_true]
      rw [scopeAt, ownedDecls_some_nil hspace, nameFrom_nil, foundAll_decls,
        nodesAt_flatMap_children node fun child => child.ownedDecls none]
      congr 1
      exact List.flatMap_congr fun child _ => found_decls child _
    | false =>
      rw [found_of_not_isSpace hspace, ← hbelow _ (by rw [hspace])]
      rfl

/-! ## The scopes of a tree -/

/-- The positions of all namespaces of a tree, in pre-order. -/
def spacePositions (root : Node) : List Position :=
  root.positions.filter (root.holdsAt isSpace)

/-- Whether a tree has a scope without a name: it is no namespace itself, and it has declarations
outside of all namespaces or no namespaces at all. -/
def hasUnnamed (root : Node) : Bool :=
  !root.isSpace && (!(root.ownedDecls none).isEmpty || root.spacePositions.isEmpty)

/-- The owners of the declarations of a tree: none for those outside of all namespaces, if there is
a scope for them, and then every namespace in pre-order. -/
def owners (root : Node) : List (Option Position) :=
  (if root.hasUnnamed then [none] else []) ++ root.spacePositions.map some

/-- The declarations of an owner in the order in which they are built: enumerations last. -/
def buildOrder (root : Node) (owner : Option Position) : List Position :=
  (root.ownedDecls owner).filter (root.holdsAt fun node => !node.isEnum)
    ++ (root.ownedDecls owner).filter (root.holdsAt isEnum)

/-- The scope of an owner. -/
def scopeOf (root : Node) (owner : Option Position) : Scope where
  name := owner.map root.fullName
  decls := root.nodesAt (root.ownedDecls owner)

theorem mem_spacePositions_iff {root : Node} {p : Position} :
    p ∈ root.spacePositions ↔ root.holdsAt isSpace p = true := by
  rw [spacePositions, List.mem_filter]
  exact ⟨fun h => h.2, fun h => ⟨mem_positions_of_holdsAt h, h⟩⟩

/-- The owner of a position is the position of a namespace. -/
theorem mem_spacePositions_of_owner? {root : Node} {p q : Position} (h : root.owner? p = some q) :
    q ∈ root.spacePositions :=
  mem_spacePositions_iff.2 (List.mem_filter.1 (List.mem_of_getLast? h)).2

theorem hasUnnamed_iff {root : Node} :
    root.hasUnnamed = true ↔
      root.isSpace = false ∧
        ((∃ p, root.holdsAt isDecl p = true ∧ root.enclosing p = []) ∨
          ∀ p, root.holdsAt isSpace p = false) := by
  have hloose : (root.ownedDecls none).isEmpty = false ↔
      ∃ p, root.holdsAt isDecl p = true ∧ root.enclosing p = [] := by
    rw [List.isEmpty_eq_false_iff_exists_mem]
    simp only [mem_ownedDecls_iff, owner?_eq_none_iff]
  have hspaces : root.spacePositions.isEmpty = true ↔ ∀ p, root.holdsAt isSpace p = false := by
    rw [List.isEmpty_iff, List.eq_nil_iff_forall_not_mem]
    simp only [mem_spacePositions_iff, Bool.not_eq_true]
  rw [hasUnnamed, Bool.and_eq_true, Bool.or_eq_true, Bool.not_eq_true', Bool.not_eq_true', hloose,
    hspaces]

/-- A namespace at the root owns every declaration, so it need not be asked for. -/
theorem hasUnnamed_eq (root : Node) :
    root.hasUnnamed = !((root.ownedDecls none).isEmpty && !root.spacePositions.isEmpty) := by
  rw [hasUnnamed]
  cases h : root.isSpace with
  | false => cases (root.ownedDecls none).isEmpty <;> cases root.spacePositions.isEmpty <;> rfl
  | true =>
    have hspaces : root.spacePositions.isEmpty = false := by
      rw [List.isEmpty_eq_false_iff_exists_mem]
      exact ⟨[], mem_spacePositions_iff.2 h⟩
    rw [ownedDecls_none_of_isSpace h, hspaces]
    rfl

/-- At positions of the tree there is a node each. -/
theorem map_some_nodesAt {root : Node} {ps : List Position} (h : ∀ p ∈ ps, p ∈ root.positions) :
    (root.nodesAt ps).map some = ps.map root.nodeAt? := by
  induction ps with
  | nil => rfl
  | cons p ps ih =>
    have hnode := mem_positions_iff.1 (h p List.mem_cons_self)
    obtain ⟨node, hnode⟩ := Option.isSome_iff_exists.1 hnode
    rw [nodesAt, List.filterMap_cons_some hnode, List.map_cons, List.map_cons, hnode]
    exact congrArg _ (ih fun q hq => h q (List.mem_cons_of_mem p hq))

/-- The nodes at some positions that pass a test are those at the positions that pass it. -/
theorem filter_nodesAt (root : Node) (test : Node → Bool) (ps : List Position) :
    (root.nodesAt ps).filter test = root.nodesAt (ps.filter (root.holdsAt test)) := by
  rw [nodesAt, nodesAt, List.filter_filterMap, List.filterMap_filter]
  refine List.filterMap_congr fun p _ => ?_
  rw [holdsAt]
  cases root.nodeAt? p with
  | none => rfl
  | some node => cases htest : test node <;> simp [Option.filter, htest]

theorem mem_positions_of_mem_ownedDecls {root : Node} {owner : Option Position} {p : Position}
    (h : p ∈ root.ownedDecls owner) : p ∈ root.positions :=
  List.mem_of_mem_filter h

theorem mem_ownedDecls_of_mem_buildOrder {root : Node} {owner : Option Position} {p : Position}
    (h : p ∈ root.buildOrder owner) : p ∈ root.ownedDecls owner := by
  rw [buildOrder, List.mem_append] at h
  rcases h with h | h
  · exact List.mem_of_mem_filter h
  · exact List.mem_of_mem_filter h

theorem mem_positions_of_mem_buildOrder {root : Node} {owner : Option Position} {p : Position}
    (h : p ∈ root.buildOrder owner) : p ∈ root.positions :=
  mem_positions_of_mem_ownedDecls (mem_ownedDecls_of_mem_buildOrder h)

/-- The scopes collected from a tree are those of its owners. -/
theorem scopes_eq (root : Node) : root.scopes = root.owners.map root.scopeOf := by
  -- There is a node at each of the positions, so the scopes are asked the same question.
  have hdecls : (root.nodesAt (root.ownedDecls none)).isEmpty = (root.ownedDecls none).isEmpty := by
    have hlength := congrArg List.length
      (map_some_nodesAt fun p (hp : p ∈ root.ownedDecls none) => mem_positions_of_mem_ownedDecls hp)
    rw [List.length_map, List.length_map] at hlength
    rw [Bool.eq_iff_iff, List.isEmpty_iff_length_eq_zero, List.isEmpty_iff_length_eq_zero, hlength]
  have hnamed : root.spacePositions.map (root.scopeAt "")
      = (root.spacePositions.map some).map root.scopeOf := by
    rw [List.map_map]
    rfl
  have hscopes : (root.found "").scopes = root.spacePositions.map (root.scopeAt "") :=
    found_scopes root ""
  rw [scopes, owners, List.map_append, ← hnamed, hasUnnamed_eq]
  simp only [found_decls, hscopes, hdecls, List.isEmpty_map]
  cases (root.ownedDecls none).isEmpty && !root.spacePositions.isEmpty <;> rfl

theorem ordered_scopeOf (root : Node) (owner : Option Position) :
    (root.scopeOf owner).ordered = root.nodesAt (root.buildOrder owner) := by
  rw [buildOrder, nodesAt_append, ← filter_nodesAt, ← filter_nodesAt, Scope.ordered]
  simp only [scopeOf, isEnum, decide_not]
  rfl

/-- What owns a declaration is among the owners. -/
theorem owner?_mem_owners {root : Node} {p : Position} (h : root.holdsAt isDecl p = true) :
    root.owner? p ∈ root.owners := by
  rw [owners, List.mem_append]
  cases howner : root.owner? p with
  | some q => exact Or.inr (List.mem_map_of_mem (mem_spacePositions_of_owner? howner))
  | none =>
    have hmem : p ∈ root.ownedDecls none := mem_ownedDecls_iff.2 ⟨h, howner⟩
    have hunnamed : root.hasUnnamed = true := by
      refine hasUnnamed_iff.2 ⟨?_, Or.inl ⟨p, h, owner?_eq_none_iff.1 howner⟩⟩
      cases hspace : root.isSpace with
      | false => rfl
      | true => simp [ownedDecls_none_of_isSpace hspace] at hmem
    rw [if_pos hunnamed]
    exact Or.inl List.mem_cons_self

/-- Every declaration goes to one namespace, or to none, and once. -/
theorem perm_flatMap_ownedDecls (root : Node) :
    ((none :: root.spacePositions.map some).flatMap root.ownedDecls).Perm
      (root.positions.filter (root.holdsAt isDecl)) := by
  have howners : (none :: root.spacePositions.map some).Nodup := by
    have hspaces : root.spacePositions.Nodup := (nodup_positions root).filter _
    exact List.nodup_cons.2 ⟨by simp, hspaces.map (Option.some_injective Position)⟩
  have hparts : ((none :: root.spacePositions.map some).flatMap root.ownedDecls).Nodup := by
    refine List.nodup_flatMap.2 ⟨fun owner _ => (nodup_positions root).filter _, ?_⟩
    refine howners.imp ?_
    intro first next hne p hfirst hnext
    exact hne ((mem_ownedDecls_iff.1 hfirst).2.symm.trans (mem_ownedDecls_iff.1 hnext).2)
  have hcovered : ∀ p, root.owner? p ∈ none :: root.spacePositions.map some := by
    intro p
    cases howner : root.owner? p with
    | none => exact List.mem_cons_self
    | some q =>
      exact List.mem_cons_of_mem none (List.mem_map_of_mem (mem_spacePositions_of_owner? howner))
  -- Neither list has repetitions, so it is enough that they have the same members.
  rw [List.perm_ext_iff_of_nodup hparts ((nodup_positions root).filter _)]
  intro p
  rw [List.mem_flatMap, List.mem_filter]
  constructor
  · rintro ⟨owner, -, hp⟩
    exact ⟨mem_positions_of_mem_ownedDecls hp, (mem_ownedDecls_iff.1 hp).1⟩
  · rintro ⟨-, hdecl⟩
    exact ⟨root.owner? p, hcovered p, mem_ownedDecls_iff.2 ⟨hdecl, rfl⟩⟩

end Recast.Node
