import Recast.Proofs.Agreement
import Recast.Tree.Resolution

/-!
# The type of a node in closed form

A node that carries hints has the type that the best of them tells. A node without hints that
indexes into something asks what it indexes, which may have to ask in turn: so a walk leads along
targets to a node that carries hints or cannot ask further (`Node.WalksTo`), and the type of the
first node is the element, as many times as the walk has steps, of what the last one tells
(`Node.type?_of_walksTo`).

The best hint comes first in the order of precedence and is the first of its source
(`IsChosen`). What a source tells depends on the hints from that source only, in their order. So the
hints from different sources can be interleaved in any way, on every node of a tree, without an
effect on any type (`Node.SameBySource`).
-/

set_option autoImplicit false

namespace Recast

/-! ## The best hint -/

/-- The place of a source in the order of precedence. -/
def TypeSource.rank : TypeSource → Nat
  | .declaredType => 0
  | .typeReference => 1
  | .inferredType => 2
  | .variableType => 3
  | .fieldType => 4
  | .propertyType => 5
  | .indexedElement => 6

/-- The source of a hint. -/
def TypeHint.source (hint : TypeHint) : TypeSource :=
  hint.told.1

/-- The type that a hint tells. -/
def TypeHint.type (hint : TypeHint) : TypeRef :=
  hint.told.2

/-- The hint that counts among several: those in front of it come from sources that count less, and
those behind it from no source that counts more. -/
def IsChosen (hints : List TypeHint) (hint : TypeHint) : Prop :=
  ∃ front back, hints = front ++ hint :: back ∧
    (∀ earlier ∈ front, hint.source.rank < earlier.source.rank) ∧
    ∀ later ∈ back, hint.source.rank ≤ later.source.rank

theorem IsChosen.rank_le {hints : List TypeHint} {hint : TypeHint} (h : IsChosen hints hint) :
    ∀ other ∈ hints, hint.source.rank ≤ other.source.rank := by
  obtain ⟨front, back, rfl, hfront, hback⟩ := h
  intro other hother
  rcases List.mem_append.1 hother with hother | hother
  · exact Nat.le_of_lt (hfront other hother)
  · rcases List.mem_cons.1 hother with rfl | hother
    · exact Nat.le_refl _
    · exact hback other hother

/-- Among hints there is one that counts. -/
theorem exists_isChosen {hints : List TypeHint} (h : hints ≠ []) :
    ∃ hint, IsChosen hints hint := by
  induction hints with
  | nil => exact absurd rfl h
  | cons first hints ih =>
    by_cases hnil : hints = []
    · exact ⟨first, [], [], by rw [hnil]; rfl, by simp, by simp⟩
    · obtain ⟨hint, hchosen⟩ := ih hnil
      have hleast := hchosen.rank_le
      obtain ⟨front, back, rfl, hfront, hback⟩ := hchosen
      by_cases hfirst : first.source.rank ≤ hint.source.rank
      · -- The first one is no worse than the best of the others.
        refine ⟨first, [], _, rfl, by simp, ?_⟩
        intro later hlater
        exact Nat.le_trans hfirst (hleast later hlater)
      · refine ⟨hint, first :: front, back, rfl, ?_, hback⟩
        exact List.forall_mem_cons.2 ⟨Nat.lt_of_not_le hfirst, hfront⟩

namespace TypeSource

theorem told?_of_isChosen {hints : List TypeHint} {hint : TypeHint} (h : IsChosen hints hint) :
    hint.source.told? hints = some hint.type := by
  obtain ⟨front, back, rfl, hfront, -⟩ := h
  apply List.findSome?_eq_some_iff.2
  refine ⟨front, hint, back, rfl, if_pos rfl, ?_⟩
  intro earlier hearlier
  apply if_neg
  intro hsource
  have hlt := hfront earlier hearlier
  rw [TypeHint.source, TypeHint.source, hsource] at hlt
  exact Nat.lt_irrefl _ hlt

theorem told?_of_rank_lt {hints : List TypeHint} {hint : TypeHint} (h : IsChosen hints hint)
    {source : TypeSource} (hlt : source.rank < hint.source.rank) : source.told? hints = none := by
  apply List.findSome?_eq_none_iff.2
  intro other hother
  apply if_neg
  rintro rfl
  exact Nat.not_lt.2 (h.rank_le other hother) hlt

/-- The sources are asked in the order of their ranks. -/
theorem precedence_pairwise : precedence.Pairwise fun first next => first.rank < next.rank := by
  decide

theorem mem_precedence (source : TypeSource) : source ∈ precedence := by
  cases source <;> decide

/-- What hints tell is told by the one that counts. -/
theorem best?_of_isChosen {hints : List TypeHint} {hint : TypeHint} (h : IsChosen hints hint) :
    best? hints = some (hint.source, hint.type) := by
  obtain ⟨front, back, hsplit⟩ := List.append_of_mem (mem_precedence hint.source)
  have hsorted := precedence_pairwise
  rw [hsplit] at hsorted
  obtain ⟨-, -, hbefore⟩ := List.pairwise_append.1 hsorted
  -- The sources in front of that of the hint are asked before it, and no hint comes from them.
  apply List.findSome?_eq_some_iff.2
  refine ⟨front, hint.source, back, hsplit, ?_, ?_⟩
  · rw [told?_of_isChosen h]
    rfl
  · intro source hsource
    rw [told?_of_rank_lt h (hbefore source hsource _ List.mem_cons_self)]
    rfl

theorem best?_nil : best? [] = none :=
  rfl

end TypeSource

/-! ## The walk along targets -/

/-- The element of a type, taken some number of times; none if the type has fewer array levels. -/
def TypeRef.elementAt? : Nat → TypeRef → Option TypeRef
  | 0, type => some type
  | k + 1, type => (elementAt? k type).bind TypeRef.element

namespace Node

/-- The node that a node asks for its type: its target, if it has no hints of its own and indexes
into the target. -/
def asked? (node : Node) : Option Node :=
  if node.hints = [] ∧ node.kind = .indexerExpression then node.childAs? .target else none

/-- Asking on from a node leads in some number of steps to a node that asks no other. -/
inductive WalksTo : Node → Nat → Node → Prop
  | stop {node : Node} : node.asked? = none → WalksTo node 0 node
  | step {node target last : Node} {k : Nat} :
      node.asked? = some target → WalksTo target k last → WalksTo node (k + 1) last

theorem mem_children_of_childAs? {node child : Node} {role : Role}
    (h : node.childAs? role = some child) : child ∈ node.children :=
  List.mem_of_find?_eq_some h

theorem asked?_eq_some_iff {node target : Node} :
    node.asked? = some target ↔
      node.hints = [] ∧ node.kind = .indexerExpression ∧ node.childAs? .target = some target := by
  rw [asked?, Option.ite_none_right_eq_some, and_assoc]

/-- Every walk comes to an end, since the target of a node stands below it. -/
theorem exists_walksTo (node : Node) : ∃ k last, node.WalksTo k last := by
  induction node using Node.induction with
  | step node ih =>
    cases hasked : node.asked? with
    | none => exact ⟨0, node, .stop hasked⟩
    | some target =>
      have hchild := mem_children_of_childAs? (asked?_eq_some_iff.1 hasked).2.2
      obtain ⟨k, last, hwalk⟩ := ih target hchild
      exact ⟨k + 1, last, .step hasked hwalk⟩

theorem WalksTo.unique {node last other : Node} {k j : Nat} (h : node.WalksTo k last)
    (hother : node.WalksTo j other) : j = k ∧ other = last := by
  induction h generalizing j with
  | stop hasked =>
    cases hother with
    | stop => exact ⟨rfl, rfl⟩
    | step hasked' _ => nomatch hasked.symm.trans hasked'
  | step hasked _ ih =>
    cases hother with
    | stop hasked' => nomatch hasked'.symm.trans hasked
    | step hasked' hwalk =>
      obtain rfl := Option.some.inj (hasked.symm.trans hasked')
      obtain ⟨rfl, rfl⟩ := ih hwalk
      exact ⟨rfl, rfl⟩

/-! ## The type in closed form -/

theorem resolveTarget?_eq (nodes : List Node) :
    resolveTarget? nodes = (nodes.find? fun node => node.role = .target).bind type? := by
  induction nodes with
  | nil => rfl
  | cons node nodes ih =>
    rw [resolveTarget?, List.find?_cons, ih]
    by_cases hrole : node.role = .target
    · simp only [hrole, if_true, decide_true]
      rfl
    · simp only [hrole, if_false, decide_false]

theorem resolveTarget?_children (node : Node) :
    resolveTarget? node.children = (node.childAs? .target).bind type? :=
  resolveTarget?_eq node.children

/-- The type of a node is what its hints tell, else the element type of what it indexes. -/
theorem resolve?_eq (node : Node) :
    node.resolve? = (TypeSource.best? node.hints).or
      (node.indexedElement?.map (.indexedElement, ·)) := by
  obtain ⟨kind, role, name, text, modifiers, attributes, hints, children⟩ := node
  rw [resolve?, indexedElement?]
  cases TypeSource.best? hints with
  | some found => rfl
  | none =>
    by_cases hkind : kind = .indexerExpression
    · simp only [hkind, if_true, Option.none_or]
    · simp only [hkind, if_false, Option.none_or, Option.map_none]

/-- A node that asks no other has the type that its hints tell. -/
theorem resolve?_of_asked?_eq_none {node : Node} (h : node.asked? = none) :
    node.resolve? = TypeSource.best? node.hints := by
  rw [resolve?_eq]
  by_cases hhints : node.hints = []
  · -- It indexes nothing, or what it indexes is missing.
    have hindexed : node.indexedElement? = none := by
      by_cases hkind : node.kind = .indexerExpression
      · rw [asked?, if_pos ⟨hhints, hkind⟩] at h
        rw [indexedElement?, if_pos hkind, resolveTarget?_children, h]
        rfl
      · exact if_neg hkind
    rw [hindexed, Option.map_none, Option.or_none]
  · obtain ⟨hint, hchosen⟩ := exists_isChosen hhints
    rw [TypeSource.best?_of_isChosen hchosen, Option.some_or]

/-- A node that asks another has the element type of that one. -/
theorem resolve?_of_asked? {node target : Node} (h : node.asked? = some target) :
    node.resolve? = (target.type?.bind TypeRef.element).map (.indexedElement, ·) := by
  obtain ⟨hhints, hkind, htarget⟩ := asked?_eq_some_iff.1 h
  rw [resolve?_eq, hhints, TypeSource.best?_nil, Option.none_or, indexedElement?, if_pos hkind,
    resolveTarget?_children, htarget, Option.bind_some]

/-- The type of a node is told by the hints of the node that its walk leads to. -/
theorem type?_of_walksTo {node last : Node} {k : Nat} (h : node.WalksTo k last) :
    node.type? = (TypeSource.best? last.hints).bind fun found => TypeRef.elementAt? k found.2 := by
  induction h with
  | stop hasked =>
    rw [type?, resolve?_of_asked?_eq_none hasked, Option.map_eq_bind]
    rfl
  | step hasked _ ih =>
    rw [type?, resolve?_of_asked? hasked, ih, Option.map_map, Option.bind_assoc]
    exact Option.map_id'

/-- The source of a type behind a walk. -/
theorem source_of_walksTo {node last : Node} {k : Nat} (h : node.WalksTo k last) {hint : TypeHint}
    (hchosen : IsChosen last.hints hint) {source : TypeSource} {type : TypeRef}
    (hfound : node.resolve? = some (source, type)) :
    source = if k = 0 then hint.source else .indexedElement := by
  cases h with
  | stop hasked =>
    rw [resolve?_of_asked?_eq_none hasked, TypeSource.best?_of_isChosen hchosen] at hfound
    cases hfound
    rfl
  | step hasked _ =>
    rw [resolve?_of_asked? hasked] at hfound
    obtain ⟨_, _, hpair⟩ := Option.map_eq_some_iff.1 hfound
    cases hpair
    rfl

/-! ## Hints in another order -/

/-- What a node shows, with its hints sorted by their sources. -/
def hintsBySource (node : Node) : Node × (TypeSource → List TypeHint) :=
  (node.face, fun source => node.hints.filter fun hint => hint.source = source)

/-- Trees that differ at most in the order of the hints on their nodes, where the hints from one
source keep their order. -/
def SameBySource (one other : Node) : Prop :=
  one.AgreesBy hintsBySource other

namespace SameBySource

variable {one other : Node}

theorem face_eq (h : one.SameBySource other) : one.face = other.face :=
  congrArg Prod.fst h.root_eq

theorem filter_eq (h : one.SameBySource other) (source : TypeSource) :
    (one.hints.filter fun hint => hint.source = source)
      = other.hints.filter fun hint => hint.source = source :=
  congrFun (congrArg Prod.snd h.root_eq) source

theorem kind_eq (h : one.SameBySource other) : one.kind = other.kind :=
  (face_eq_iff.1 h.face_eq).1

theorem role_eq (h : one.SameBySource other) : one.role = other.role :=
  (face_eq_iff.1 h.face_eq).2.1

/-- A search among the hints from one source finds the same. -/
theorem findSome?_hints_eq (h : one.SameBySource other) {α : Type} (source : TypeSource)
    {f : TypeHint → Option α} (hf : ∀ hint : TypeHint, hint.source ≠ source → f hint = none) :
    one.hints.findSome? f = other.hints.findSome? f := by
  rw [← findSome?_filter_of_none fun hint _ hother => hf hint (of_decide_eq_false hother),
    h.filter_eq source]
  exact findSome?_filter_of_none fun hint _ hother => hf hint (of_decide_eq_false hother)

theorem best?_eq (h : one.SameBySource other) :
    TypeSource.best? one.hints = TypeSource.best? other.hints := by
  have htold : ∀ source : TypeSource, source.told? one.hints = source.told? other.hints := by
    intro source
    exact h.findSome?_hints_eq source fun hint hother => if_neg hother
  simp only [TypeSource.best?, htold]

theorem propertyOwner?_eq (h : one.SameBySource other) :
    propertyOwner? one.hints = propertyOwner? other.hints := by
  apply h.findSome?_hints_eq .propertyType
  intro hint hother
  cases hint with
  | ofProperty => exact absurd rfl hother
  | _ => rfl

theorem fieldOwner?_eq (h : one.SameBySource other) :
    fieldOwner? one.hints = fieldOwner? other.hints := by
  apply h.findSome?_hints_eq .fieldType
  intro hint hother
  cases hint with
  | ofField => exact absurd rfl hother
  | _ => rfl

theorem childAs? (h : one.SameBySource other) (role : Role) :
    Option.Rel SameBySource (one.childAs? role) (other.childAs? role) := by
  rw [childAs?_eq_head?, childAs?_eq_head?]
  apply head?_rel_of_forall₂
  refine List.rel_filter (fun child otherChild hchild => ?_) h.children
  have hrole : child.role = otherChild.role := role_eq hchild
  simp only [hrole]

/-- The targets of two nodes have the same type if their children have. -/
theorem resolveTarget?_eq (h : one.SameBySource other)
    (hchildren : ∀ child ∈ one.children, ∀ otherChild, child.SameBySource otherChild →
      child.resolve? = otherChild.resolve?) :
    resolveTarget? one.children = resolveTarget? other.children := by
  rw [resolveTarget?_children, resolveTarget?_children]
  have hsame := h.childAs? .target
  generalize htarget : one.childAs? .target = target? at hsame ⊢
  generalize other.childAs? .target = otherTarget? at hsame ⊢
  cases hsame with
  | none => rfl
  | some hsame =>
    have hchild := mem_children_of_childAs? htarget
    rw [Option.bind_some, Option.bind_some, type?, type?, hchildren _ hchild _ hsame]

theorem resolve?_eq (h : one.SameBySource other) : one.resolve? = other.resolve? := by
  induction one using Node.induction generalizing other with
  | step node ih =>
    have htarget := h.resolveTarget?_eq fun child hchild _ hsame => ih child hchild hsame
    rw [Node.resolve?_eq, Node.resolve?_eq, indexedElement?, indexedElement?, h.best?_eq,
      h.kind_eq, htarget]

theorem type?_eq (h : one.SameBySource other) : one.type? = other.type? := by
  rw [type?, type?, h.resolve?_eq]

theorem targetType?_eq (h : one.SameBySource other) : one.targetType? = other.targetType? := by
  have htarget := h.resolveTarget?_eq fun _ _ _ hsame => hsame.resolve?_eq
  rw [targetType?, targetType?, h.propertyOwner?_eq, h.fieldOwner?_eq, htarget]

end SameBySource

/-- Type resolution in closed form. From every node one walk leads to a node that asks no other. If
that one has no hints, the type is unknown. If it has some, the type is the element of the one that
the chosen hint tells, taken as many times as the walk has steps; its source is the source of the
hint if there was no step, and an indexed element otherwise. The order of hints from different
sources has no effect, neither on the type of a node nor on the one that declares its member. -/
theorem resolve?_closed_form (node : Node) :
    (∃ k last, node.WalksTo k last ∧
      ∀ j other, node.WalksTo j other → j = k ∧ other = last) ∧
    (∀ k last, node.WalksTo k last →
      (last.hints = [] → node.resolve? = none ∧ node.type? = none) ∧
      (last.hints ≠ [] → ∃ hint, IsChosen last.hints hint) ∧
      ∀ hint, IsChosen last.hints hint →
        node.type? = TypeRef.elementAt? k hint.type ∧
        ∀ source type, node.resolve? = some (source, type) →
          source = if k = 0 then hint.source else .indexedElement) ∧
    ∀ other, node.SameBySource other →
      other.type? = node.type? ∧ other.targetType? = node.targetType? := by
  refine ⟨?_, ?_, ?_⟩
  · obtain ⟨k, last, hwalk⟩ := exists_walksTo node
    exact ⟨k, last, hwalk, fun _ _ hother => hwalk.unique hother⟩
  · intro k last hwalk
    refine ⟨?_, exists_isChosen, ?_⟩
    · intro hhints
      have htype := type?_of_walksTo hwalk
      rw [hhints, TypeSource.best?_nil, Option.bind_none] at htype
      exact ⟨Option.map_eq_none_iff.1 htype, htype⟩
    · intro hint hchosen
      constructor
      · rw [type?_of_walksTo hwalk, TypeSource.best?_of_isChosen hchosen, Option.bind_some]
      · intro source type hfound
        exact source_of_walksTo hwalk hchosen hfound
  · intro other hsame
    exact ⟨hsame.type?_eq.symm, hsame.targetType?_eq.symm⟩

/-- An element of something. -/
def elementOf (target : Node) : Node :=
  { kind := .indexerExpression, role := .target, children := [target] }

/-- A variable with some hints. -/
def gridVariable (hints : List TypeHint) : Node :=
  { role := .target, text := "grid", hints := hints }

theorem SameBySource.elementOf {target otherTarget : Node} (h : target.SameBySource otherTarget) :
    (elementOf target).SameBySource (elementOf otherTarget) := by
  intro p
  match p with
  | [] => rfl
  | 0 :: p => exact h p
  | (_ + 1) :: _ => rfl

/-- Two hints at the type of a variable that holds a grid of cells: it is a property of its owner,
and it is a variable. -/
def gridHints (owner cell : TypeRef) : List TypeHint :=
  [.ofProperty "Grid" owner owner, .ofVariable "grid" cell.arrayOf.arrayOf]

theorem sameBySource_gridVariable (owner cell : TypeRef) :
    (gridVariable (gridHints owner cell)).SameBySource
      (gridVariable (gridHints owner cell).reverse) := by
  intro p
  cases p with
  | nil =>
    refine congrArg some (Prod.ext rfl (funext fun source => ?_))
    cases source <;> rfl
  | cons => rfl

/-- An element of an element of a variable that two hints describe, of which the second one counts,
in either order. -/
theorem resolve?_closed_form_grid :
    let owner : TypeRef := { name := "Board" }
    let cell : TypeRef := { name := "Cell" }
    let grid := gridVariable (gridHints owner cell)
    let node := elementOf (elementOf grid)
    node.WalksTo 2 grid ∧ node.type? = some cell ∧
      (∀ source type, node.resolve? = some (source, type) → source = .indexedElement) ∧
      (elementOf (elementOf (gridVariable (gridHints owner cell).reverse))).type?
        = some cell := by
  intro owner cell grid node
  have hwalk : node.WalksTo 2 grid := .step rfl (.step rfl (.stop rfl))
  have hchosen : IsChosen grid.hints (.ofVariable "grid" cell.arrayOf.arrayOf) :=
    ⟨[.ofProperty "Grid" owner owner], [], rfl, by decide, by decide⟩
  obtain ⟨-, hform, hsame⟩ := resolve?_closed_form node
  obtain ⟨-, -, hhint⟩ := hform 2 grid hwalk
  obtain ⟨htype, hsource⟩ := hhint _ hchosen
  refine ⟨hwalk, htype, hsource, ?_⟩
  rw [(hsame _ (sameBySource_gridVariable owner cell).elementOf.elementOf).1, htype]
  rfl

end Node

end Recast
