import Mathlib.Data.List.Basic
import Recast.Tree.Node

/-!
# Positions in a tree

Equal nodes can stand at several places of a tree, so a node is identified by its position: the
indices of the children on the way down from the root. `Node.nodeAt?` looks a position up and
`Node.positions` lists all of them in pre-order. The list holds exactly the positions at which a
node stands (`mem_positions_iff`), and pre-order is the lexicographic order of positions
(`positions_pairwise_lt`), so no position is listed twice.

The other lemmas take the positions of a tree apart by the children of its root; every induction
over a tree in this library goes through them and `Node.induction`.
-/

set_option autoImplicit false

namespace Recast

/-- The indices of the children on the way from the root of a tree to a node. -/
abbrev Position := List Nat

namespace Node

/-- Induction over trees: what passes from the children of a node to the node holds of all. -/
@[elab_as_elim]
theorem induction {motive : Node → Prop}
    (step : ∀ node, (∀ child ∈ node.children, motive child) → motive node) (node : Node) :
    motive node :=
  step node fun child _hchild => induction step child
termination_by sizeOf node
decreasing_by
  have hlt := List.sizeOf_lt_of_mem _hchild
  cases node
  simp only [Node.mk.sizeOf_spec] at hlt ⊢
  omega

/-! ## Looking up a position -/

/-- The node at a position, if there is one. -/
def nodeAt? (node : Node) : Position → Option Node
  | [] => some node
  | i :: p => node.children[i]?.bind fun child => child.nodeAt? p

@[simp] theorem nodeAt?_nil (node : Node) : node.nodeAt? [] = some node :=
  rfl

theorem nodeAt?_cons {node child : Node} {i : Nat} (hchild : node.children[i]? = some child)
    (p : Position) : node.nodeAt? (i :: p) = child.nodeAt? p := by
  simp only [nodeAt?, hchild, Option.bind_some]

/-- A position can be looked up in two parts. -/
theorem nodeAt?_append (root : Node) (p q : Position) :
    root.nodeAt? (p ++ q) = (root.nodeAt? p).bind fun node => node.nodeAt? q := by
  induction p generalizing root with
  | nil => rfl
  | cons i p ih =>
    rw [List.cons_append, nodeAt?, nodeAt?, Option.bind_assoc]
    simp only [ih]

/-- Whether the node at a position passes a test. -/
def holdsAt (root : Node) (test : Node → Bool) (p : Position) : Bool :=
  (root.nodeAt? p).any test

@[simp] theorem holdsAt_nil (node : Node) (test : Node → Bool) :
    node.holdsAt test [] = test node :=
  rfl

theorem holdsAt_cons {node child : Node} {i : Nat} (hchild : node.children[i]? = some child)
    (test : Node → Bool) (p : Position) :
    node.holdsAt test (i :: p) = child.holdsAt test p := by
  rw [holdsAt, nodeAt?_cons hchild, holdsAt]

/-- The nodes at several positions. -/
def nodesAt (root : Node) (ps : List Position) : List Node :=
  ps.filterMap root.nodeAt?

theorem nodesAt_map_cons {node child : Node} {i : Nat} (hchild : node.children[i]? = some child)
    (ps : List Position) : node.nodesAt (ps.map (i :: ·)) = child.nodesAt ps := by
  rw [nodesAt, nodesAt, List.filterMap_map]
  exact List.filterMap_congr fun p _ => nodeAt?_cons hchild p

/-! ## All positions -/

mutual

/-- The positions of all nodes of a tree, in pre-order. -/
def positions : Node → List Position
  | ⟨_, _, _, _, _, _, _, children⟩ => [] :: positionsFrom 0 children

/-- The positions of all nodes at and below some children, the first of which has index `i`. -/
def positionsFrom (i : Nat) : List Node → List Position
  | [] => []
  | child :: children => child.positions.map (i :: ·) ++ positionsFrom (i + 1) children

end

theorem positionsFrom_eq_flatMap (i : Nat) (children : List Node) :
    positionsFrom i children
      = (children.zipIdx i).flatMap fun entry => entry.1.positions.map (entry.2 :: ·) := by
  induction children generalizing i with
  | nil => rfl
  | cons child children ih =>
    rw [positionsFrom, ih, List.zipIdx_cons, List.flatMap_cons]

/-- The root comes first, then the positions below each child in turn. -/
theorem positions_eq (node : Node) :
    node.positions
      = [] :: node.children.zipIdx.flatMap fun entry => entry.1.positions.map (entry.2 :: ·) := by
  cases node
  rw [positions, positionsFrom_eq_flatMap]

/-- An entry of the numbered children is a child under its index. -/
theorem getElem?_of_mem_zipIdx {node : Node} {entry : Node × Nat}
    (hentry : entry ∈ node.children.zipIdx) : node.children[entry.2]? = some entry.1 :=
  List.mem_zipIdx_iff_getElem?.1 hentry

theorem mem_children_of_mem_zipIdx {node : Node} {entry : Node × Nat}
    (hentry : entry ∈ node.children.zipIdx) : entry.1 ∈ node.children :=
  List.mem_of_getElem? (getElem?_of_mem_zipIdx hentry)

/-- The positions of a tree are exactly those at which a node stands. -/
theorem mem_positions_iff {root : Node} {p : Position} :
    p ∈ root.positions ↔ (root.nodeAt? p).isSome := by
  induction root using Node.induction generalizing p with
  | step node ih =>
    rw [positions_eq]
    cases p with
    | nil => simp
    | cons i p =>
      simp only [List.mem_cons, reduceCtorEq, List.mem_flatMap, List.mem_map, false_or]
      constructor
      · rintro ⟨entry, hentry, q, hq, heq⟩
        obtain ⟨rfl, rfl⟩ := List.cons.inj heq
        rw [nodeAt?_cons (getElem?_of_mem_zipIdx hentry)]
        exact (ih entry.1 (mem_children_of_mem_zipIdx hentry)).1 hq
      · intro h
        cases hchild : node.children[i]? with
        | none => simp [nodeAt?, hchild] at h
        | some child =>
          rw [nodeAt?_cons hchild] at h
          have hp := (ih child (List.mem_of_getElem? hchild)).2 h
          exact ⟨(child, i), List.mem_zipIdx_iff_getElem?.2 hchild, p, hp, rfl⟩

/-- The indices in a list of numbered elements increase. -/
theorem zipIdx_pairwise_lt (children : List Node) :
    children.zipIdx.Pairwise fun first next => first.2 < next.2 := by
  have h : (children.zipIdx.map Prod.snd).Pairwise (· < ·) := by
    rw [List.zipIdx_map_snd]
    exact List.pairwise_lt_range'
  exact List.pairwise_map.1 h

/-- Pre-order is the lexicographic order of positions. -/
theorem positions_pairwise_lt (root : Node) : root.positions.Pairwise (· < ·) := by
  induction root using Node.induction with
  | step node ih =>
    rw [positions_eq, List.pairwise_cons, List.pairwise_flatMap]
    refine ⟨?_, ?_, ?_⟩
    · -- The root comes before everything below it.
      intro p hp
      obtain ⟨entry, -, hp⟩ := List.mem_flatMap.1 hp
      obtain ⟨q, -, rfl⟩ := List.mem_map.1 hp
      exact List.nil_lt_cons _ _
    · intro entry hentry
      rw [List.pairwise_map]
      refine (ih entry.1 (mem_children_of_mem_zipIdx hentry)).imp ?_
      intro p q hpq
      exact List.cons_lt_cons_iff.2 (Or.inr ⟨rfl, hpq⟩)
    · -- What is below a child comes before what is below a later one.
      refine (zipIdx_pairwise_lt node.children).imp ?_
      intro first next hlt p hp q hq
      obtain ⟨p, -, rfl⟩ := List.mem_map.1 hp
      obtain ⟨q, -, rfl⟩ := List.mem_map.1 hq
      exact List.cons_lt_cons_iff.2 (Or.inl hlt)

theorem nodup_positions (root : Node) : root.positions.Nodup := by
  refine (positions_pairwise_lt root).imp ?_
  intro p q hlt heq
  exact List.lt_irrefl p (heq ▸ hlt)

/-- The positions that pass a test, by the children of the root. -/
theorem filter_positions (node : Node) (test : Position → Bool) :
    node.positions.filter test
      = (if test [] then [[]] else []) ++ node.children.zipIdx.flatMap fun entry =>
          (entry.1.positions.filter fun p => test (entry.2 :: p)).map (entry.2 :: ·) := by
  rw [positions_eq, List.filter_cons, List.filter_flatMap]
  simp only [List.filter_map, Function.comp_def]
  split <;> rfl

/-- Numbered children of which only one contributes: the rest can be left out. -/
theorem flatMap_zipIdx_eq_of_getElem? {α : Type} {children : List Node} {child : Node} {i : Nat}
    (hchild : children[i]? = some child) {f : Node × Nat → List α}
    (hother : ∀ entry ∈ children.zipIdx, entry.2 ≠ i → f entry = []) :
    children.zipIdx.flatMap f = f (child, i) := by
  have hmem : (child, i) ∈ children.zipIdx := List.mem_zipIdx_iff_getElem?.2 hchild
  have hsorted := zipIdx_pairwise_lt children
  -- The indices increase, so those before and behind the entry are other ones.
  obtain ⟨before, after, hsplit⟩ := List.append_of_mem hmem
  rw [hsplit] at hsorted hother ⊢
  obtain ⟨-, hafter, hbefore⟩ := List.pairwise_append.1 hsorted
  have hb : before.flatMap f = [] := by
    rw [List.flatMap_eq_nil_iff]
    intro entry hentry
    have hlt := hbefore entry hentry (child, i) List.mem_cons_self
    exact hother entry (by simp [hentry]) (Nat.ne_of_lt hlt)
  have ha : after.flatMap f = [] := by
    rw [List.flatMap_eq_nil_iff]
    intro entry hentry
    have hlt := (List.pairwise_cons.1 hafter).1 entry hentry
    exact hother entry (by simp [hentry]) (Nat.ne_of_gt hlt)
  rw [List.flatMap_append, List.flatMap_cons, hb, ha, List.nil_append, List.append_nil]

end Node

end Recast
