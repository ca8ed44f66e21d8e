import Mathlib.Data.List.Perm.Basic
import Recast.Proofs.Fragment

/-!
# The member accesses of a body

A body lists the accesses to members below its block. The positions of a tree are listed in
post-order here (`Node.postorder`): the same positions as in pre-order (`perm_postorder`), but each
one behind all positions below it. When one position comes before another is said of the two
positions alone (`Position.Precedes`), and the list is in that order (`postorder_pairwise`).

`references_eq_nodesAt` says that the references which are collected below a node are the nodes at
those of its positions, in post-order, at which a member reference stands. So the accesses of a body
belong to the references below its block one by one (`exists_accessesBelow`).
-/

set_option autoImplicit false

namespace Recast

/-! ## The order of positions -/

namespace Position

/-- A position is properly below another one. -/
def IsBelow (p q : Position) : Prop :=
  ∃ i rest, p = q ++ i :: rest

/-- Two positions part at a common ancestor, the first one into an earlier child. -/
def IsLeftOf (p q : Position) : Prop :=
  ∃ (ancestor : Position) (i j : Nat) (rest otherRest : Position),
    i < j ∧ p = ancestor ++ i :: rest ∧ q = ancestor ++ j :: otherRest

/-- A position comes before another one in post-order. -/
def Precedes (p q : Position) : Prop :=
  IsBelow p q ∨ IsLeftOf p q

theorem not_nil_precedes (q : Position) : ¬ Precedes [] q := by
  rintro (⟨i, rest, h⟩ | ⟨ancestor, i, j, rest, otherRest, -, h, -⟩)
  · exact List.append_ne_nil_of_right_ne_nil q (List.cons_ne_nil i rest) h.symm
  · exact List.append_ne_nil_of_right_ne_nil ancestor (List.cons_ne_nil i rest) h.symm

theorem precedes_nil (i : Nat) (p : Position) : Precedes (i :: p) [] :=
  .inl ⟨i, p, rfl⟩

theorem precedes_of_lt {i j : Nat} (h : i < j) (p q : Position) : Precedes (i :: p) (j :: q) :=
  .inr ⟨[], i, j, p, q, h, rfl, rfl⟩

theorem Precedes.cons {p q : Position} (h : Precedes p q) (i : Nat) :
    Precedes (i :: p) (i :: q) := by
  rcases h with ⟨j, rest, rfl⟩ | ⟨ancestor, j, k, rest, otherRest, hlt, rfl, rfl⟩
  · exact .inl ⟨j, rest, rfl⟩
  · exact .inr ⟨i :: ancestor, j, k, rest, otherRest, hlt, rfl, rfl⟩

/-- Where two positions begin differently, the first indices decide. -/
theorem precedes_cons_iff {i j : Nat} {p q : Position} :
    Precedes (i :: p) (j :: q) ↔ i < j ∨ (i = j ∧ Precedes p q) := by
  constructor
  · rintro (⟨k, rest, h⟩ | ⟨ancestor, k, l, rest, otherRest, hlt, hp, hq⟩)
    · obtain ⟨rfl, rfl⟩ := List.cons.inj h
      exact .inr ⟨rfl, .inl ⟨k, rest, rfl⟩⟩
    · cases ancestor with
      | nil =>
        obtain ⟨rfl, rfl⟩ := List.cons.inj hp
        obtain ⟨rfl, rfl⟩ := List.cons.inj hq
        exact .inl hlt
      | cons first ancestor =>
        obtain ⟨rfl, rfl⟩ := List.cons.inj hp
        obtain ⟨rfl, rfl⟩ := List.cons.inj hq
        exact .inr ⟨rfl, .inr ⟨ancestor, k, l, rest, otherRest, hlt, rfl, rfl⟩⟩
  · rintro (hlt | ⟨rfl, h⟩)
    · exact precedes_of_lt hlt p q
    · exact h.cons i

theorem Precedes.asymm {p q : Position} (h : Precedes p q) : ¬ Precedes q p := by
  induction p generalizing q with
  | nil => exact absurd h (not_nil_precedes q)
  | cons i p ih =>
    cases q with
    | nil => exact not_nil_precedes (i :: p)
    | cons j q =>
      intro hback
      rcases precedes_cons_iff.1 h with hlt | ⟨heq, hrest⟩
      · rcases precedes_cons_iff.1 hback with hgt | ⟨heq, -⟩
        · omega
        · omega
      · rcases precedes_cons_iff.1 hback with hgt | ⟨-, hrestBack⟩
        · omega
        · exact ih hrest hrestBack

/-- In a list that is in this order, the places of two positions compare as the positions do. -/
theorem lt_iff_precedes {ps : List Position} (hordered : ps.Pairwise Precedes) {a b : Nat}
    {p q : Position} (hp : ps[a]? = some p) (hq : ps[b]? = some q) : a < b ↔ Precedes p q := by
  obtain ⟨ha, rfl⟩ := List.getElem?_eq_some_iff.1 hp
  obtain ⟨hb, rfl⟩ := List.getElem?_eq_some_iff.1 hq
  have hforward := List.pairwise_iff_getElem.1 hordered
  constructor
  · exact hforward a b ha hb
  · intro h
    rcases Nat.lt_trichotomy a b with hlt | rfl | hgt
    · exact hlt
    · exact absurd h h.asymm
    · exact absurd (hforward b a hb ha hgt) h.asymm

end Position

/-! ## Post-order -/

namespace Node

open Position (Precedes)

mutual

/-- The positions of all nodes of a tree, in post-order. -/
def postorder : Node → List Position
  | ⟨_, _, _, _, _, _, _, children⟩ => postorderFrom 0 children ++ [[]]

/-- The positions of all nodes at and below some children, the first of which has index `i`. -/
def postorderFrom (i : Nat) : List Node → List Position
  | [] => []
  | child :: children => child.postorder.map (i :: ·) ++ postorderFrom (i + 1) children

end

theorem postorderFrom_eq_flatMap (i : Nat) (children : List Node) :
    postorderFrom i children
      = (children.zipIdx i).flatMap fun entry => entry.1.postorder.map (entry.2 :: ·) := by
  induction children generalizing i with
  | nil => rfl
  | cons child children ih =>
    rw [postorderFrom, ih, List.zipIdx_cons, List.flatMap_cons]

/-- The positions below each child come in turn, and the root is last. -/
theorem postorder_eq (node : Node) :
    node.postorder
      = (node.children.zipIdx.flatMap fun entry => entry.1.postorder.map (entry.2 :: ·))
        ++ [[]] := by
  cases node
  rw [postorder, postorderFrom_eq_flatMap]

/-- Post-order lists the same positions as pre-order. -/
theorem perm_postorder (root : Node) : root.postorder.Perm root.positions := by
  induction root using Node.induction with
  | step node ih =>
    rw [postorder_eq, positions_eq]
    refine (List.perm_append_singleton [] _).trans (.cons [] ?_)
    refine List.Perm.flatMap_left _ ?_
    intro entry hentry
    exact (ih entry.1 (mem_children_of_mem_zipIdx hentry)).map _

/-- A position is listed behind everything below it, and in front of what is below a later child
where the two part. -/
theorem postorder_pairwise (root : Node) : root.postorder.Pairwise Precedes := by
  induction root using Node.induction with
  | step node ih =>
    rw [postorder_eq, List.pairwise_append, List.pairwise_flatMap]
    refine ⟨⟨?_, ?_⟩, List.pairwise_singleton Precedes [], ?_⟩
    · intro entry hentry
      rw [List.pairwise_map]
      refine (ih entry.1 (mem_children_of_mem_zipIdx hentry)).imp ?_
      intro p q hpq
      exact hpq.cons entry.2
    · refine (zipIdx_pairwise_lt node.children).imp ?_
      intro first next hlt p hp q hq
      obtain ⟨p, -, rfl⟩ := List.mem_map.1 hp
      obtain ⟨q, -, rfl⟩ := List.mem_map.1 hq
      exact Position.precedes_of_lt hlt p q
    · -- The root is behind all the others.
      intro p hp q hq
      obtain ⟨entry, -, hp⟩ := List.mem_flatMap.1 hp
      obtain ⟨p, -, rfl⟩ := List.mem_map.1 hp
      obtain rfl := List.mem_singleton.1 hq
      exact Position.precedes_nil entry.2 p

/-- The positions that pass a test, by the children of the root. -/
theorem filter_postorder (node : Node) (test : Position → Bool) :
    node.postorder.filter test
      = (node.children.zipIdx.flatMap fun entry =>
          (entry.1.postorder.filter fun p => test (entry.2 :: p)).map (entry.2 :: ·))
        ++ if test [] then [[]] else [] := by
  rw [postorder_eq, List.filter_append, List.filter_flatMap]
  simp only [List.filter_map, Function.comp_def, List.filter_cons, List.filter_nil]

end Node

/-! ## References by position -/

namespace Build

open Node
open Position (Precedes)

/-- Whether a node is a member reference. -/
def isReference (node : Node) : Bool :=
  node.kind = .memberReference

/-- The positions below a node at which member references stand, in post-order. -/
def referencePositions (node : Node) : List Position :=
  node.postorder.filter fun p => !p.isEmpty && node.holdsAt isReference p

theorem referencesIn_eq_flatMap (nodes : List Node) :
    referencesIn nodes
      = nodes.flatMap fun node => references node ++ if isReference node then [node] else [] := by
  induction nodes with
  | nil => rfl
  | cons node nodes ih =>
    rw [referencesIn, ih, List.flatMap_cons, isReference]
    simp only [decide_eq_true_eq]

theorem references_eq_flatMap (node : Node) :
    references node
      = node.children.flatMap fun child =>
          references child ++ if isReference child then [child] else [] := by
  cases node
  rw [references, referencesIn_eq_flatMap]

/-- What is listed for the children of a node, by the positions below each of them. -/
theorem nodesAt_flatMap_filter (node : Node) :
    node.nodesAt (node.children.zipIdx.flatMap fun entry =>
        (entry.1.postorder.filter fun p => node.holdsAt isReference (entry.2 :: p)).map
          (entry.2 :: ·))
      = node.children.flatMap fun child =>
          child.nodesAt (child.postorder.filter (child.holdsAt isReference)) := by
  rw [← nodesAt_flatMap_children node fun child =>
    child.postorder.filter (child.holdsAt isReference)]
  refine congrArg node.nodesAt (List.flatMap_congr fun entry hentry => ?_)
  simp only [holdsAt_cons (getElem?_of_mem_zipIdx hentry)]

/-- The references at and below a node: those below it, and then itself if it is one. -/
theorem nodesAt_filter_postorder (node : Node) :
    node.nodesAt (node.postorder.filter (node.holdsAt isReference))
      = references node ++ if isReference node then [node] else [] := by
  induction node using Node.induction with
  | step node ih =>
    rw [filter_postorder, nodesAt_append, nodesAt_flatMap_filter, List.flatMap_congr ih,
      ← references_eq_flatMap, holdsAt_nil]
    split <;> rfl

/-- The references that are collected below a node are those at the positions below it. -/
theorem references_eq_nodesAt (node : Node) :
    references node = node.nodesAt (referencePositions node) := by
  have hchildren : ∀ child ∈ node.children, references child
      ++ (if isReference child then [child] else [])
        = child.nodesAt (child.postorder.filter (child.holdsAt isReference)) :=
    fun child _ => (nodesAt_filter_postorder child).symm
  rw [references_eq_flatMap, List.flatMap_congr hchildren, ← nodesAt_flatMap_filter,
    referencePositions, filter_postorder]
  simp

theorem mem_referencePositions_iff {node : Node} {p : Position} :
    p ∈ referencePositions node ↔
      p ≠ [] ∧ ∃ reference, node.nodeAt? p = some reference ∧
        reference.kind = .memberReference := by
  have htest : node.holdsAt isReference p = true ↔
      ∃ reference, node.nodeAt? p = some reference ∧ reference.kind = .memberReference := by
    simp only [holdsAt, Option.any_eq_true, isReference, decide_eq_true_eq]
  rw [referencePositions, List.mem_filter, Bool.and_eq_true, htest, (perm_postorder node).mem_iff]
  constructor
  · rintro ⟨-, hne, hreference⟩
    exact ⟨by simpa using hne, hreference⟩
  · rintro ⟨hne, hreference⟩
    exact ⟨mem_positions_of_holdsAt (htest.2 hreference), by simpa using hne, hreference⟩

/-! ## Accesses -/

/-- The access that a reference makes: its own name, the text of its first target, empty if it has
none, and the text of the type that declares the member. -/
structure IsAccessOf (reference : Node) (access : Invocation) : Prop where
  member_eq : access.member = reference.name
  target_eq : ∀ target, reference.childAs? .target = some target → access.target = target.text
  target_eq_empty : reference.childAs? .target = none → access.target = ""
  type_eq : access.type = TypeRef.textOf reference.targetType?

theorem isAccessOf_invocation (reference : Node) : IsAccessOf reference (invocation reference) where
  member_eq := rfl
  target_eq := by
    intro target htarget
    rw [invocation, textAs, htarget]
    rfl
  target_eq_empty := by
    intro hnone
    rw [invocation, textAs, hnone]
    rfl
  type_eq := rfl

/-- How accesses belong to the member references strictly below a block: each reference is listed
once, behind those below it and in front of those in the subtree of a later child where the two
part, and has one access. -/
structure AccessesBelow (block : Node) (ps : List Position) (accesses : List Invocation) :
    Prop where
  mem_iff : ∀ p, p ∈ ps ↔ p ≠ [] ∧ ∃ reference, block.nodeAt? p = some reference ∧
    reference.kind = .memberReference
  nodup : ps.Nodup
  order : ∀ (a b : Nat) (p q : Position), ps[a]? = some p → ps[b]? = some q →
    (a < b ↔ Precedes p q)
  accesses : List.Forall₂ (fun p access => ∃ reference, block.nodeAt? p = some reference ∧
    IsAccessOf reference access) ps accesses

/-- The accesses of a body belong to the member references below its block one by one, innermost
references first. -/
theorem exists_accessesBelow (owner block : Node) (h : owner.childAs? .body = some block) :
    ∃ ps, AccessesBelow block ps (body owner).invocations := by
  have hordered : (referencePositions block).Pairwise Precedes :=
    (postorder_pairwise block).filter _
  have hpositions : ∀ p ∈ referencePositions block, p ∈ block.positions := by
    intro p hp
    exact (perm_postorder block).mem_iff.1 (List.mem_filter.1 hp).1
  have hinvocations : (body owner).invocations = (references block).map invocation := by
    rw [body, h]
  refine ⟨referencePositions block, fun p => mem_referencePositions_iff, ?_, ?_, ?_⟩
  · exact ((perm_postorder block).nodup_iff.2 (nodup_positions block)).filter _
  · intro a b p q hp hq
    exact Position.lt_iff_precedes hordered hp hq
  · rw [hinvocations, references_eq_nodesAt, ← forall₂_nodesAt hpositions,
      List.forall₂_map_right_iff, List.forall₂_same]
    exact fun reference _ => isAccessOf_invocation reference

/-- A block that is a member reference itself. Below it an access to `this.rows.Count` stands in
front of a class, inside of which two more references stand beside each other. -/
def chainedBlock : Node :=
  { kind := .memberReference, role := .body, name := "block", children := [
      { kind := .memberReference, name := "Count", children := [
          { kind := .memberReference, role := .target, name := "rows", text := "this.rows"
            hints := [.ofField "rows" { name := "Rows" } { name := "Grid" }]
            children := [{ role := .target, text := "this" }] }] },
      { kind := .classDecl, name := "Local", children := [
          { kind := .memberReference, name := "first" },
          { kind := .memberReference, name := "second" }] }] }

/-- The method with this block as its body. -/
def chainedMethod : Node :=
  { kind := .methodDecl, name := "Length", children := [chainedBlock] }

theorem exists_accessesBelow_chainedBlock :
    chainedMethod.childAs? .body = some chainedBlock ∧
      (body chainedMethod).invocations = [
        { target := "this", member := "rows", type := "Grid" },
        { target := "this.rows", member := "Count", type := "Rows" },
        { target := "", member := "first", type := "NULL TYPE" },
        { target := "", member := "second", type := "NULL TYPE" }] ∧
      ∃ ps, AccessesBelow chainedBlock ps (body chainedMethod).invocations :=
  ⟨rfl, by decide +kernel, exists_accessesBelow chainedMethod chainedBlock rfl⟩

end Build

end Recast
