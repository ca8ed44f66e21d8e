import Mathlib.Data.List.Forall2
import Recast.Proofs.Position

/-!
# Trees that agree up to type hints

Two trees agree off their bases if they show the same at every position, and if in addition they
have the same type hints wherever a base type of a class is concerned: at the base type itself and
everywhere below it. Elsewhere the hints are free.

The relation is said of positions. `agreesOffBases_iff` takes it apart by the children of the root:
the roots show the same, the children agree off their bases, and the base types of a class are equal
trees. All that follows about two such trees goes through this law.
-/

set_option autoImplicit false

namespace Recast

/-- Lists are related element by element if what stands at each index is. -/
theorem forall₂_iff_getElem? {α β : Type} {related : α → β → Prop} {l : List α} {m : List β} :
    List.Forall₂ related l m ↔ ∀ i : Nat, Option.Rel related l[i]? m[i]? := by
  constructor
  · intro h
    induction h with
    | nil =>
      intro i
      exact .none
    | cons hfirst _ ih =>
      intro i
      cases i with
      | zero => exact .some hfirst
      | succ i => simpa using ih i
  · intro h
    induction l generalizing m with
    | nil =>
      cases m with
      | nil => exact .nil
      | cons b m => nomatch h 0
    | cons a l ih =>
      cases m with
      | nil => nomatch h 0
      | cons b m =>
        have hfirst : Option.Rel related (some a) (some b) := h 0
        cases hfirst with
        | some hab => exact .cons hab (ih fun i => by simpa using h (i + 1))

/-- A relation between lists can be replaced by one that follows from it for the elements of the
first list. -/
theorem forall₂_imp_of_mem {α β : Type} {related relatedMore : α → β → Prop} {l : List α}
    {m : List β} (h : List.Forall₂ related l m)
    (himp : ∀ a ∈ l, ∀ b, related a b → relatedMore a b) : List.Forall₂ relatedMore l m := by
  induction h with
  | nil => exact .nil
  | cons hfirst _ ih =>
    refine .cons (himp _ List.mem_cons_self _ hfirst) ?_
    exact ih fun a ha => himp a (List.mem_cons_of_mem _ ha)

theorem head?_rel_of_forall₂ {α β : Type} {related : α → β → Prop} {l : List α} {m : List β}
    (h : List.Forall₂ related l m) : Option.Rel related l.head? m.head? := by
  cases h with
  | nil => exact .none
  | cons hfirst _ => exact .some hfirst

/-- Related lists have the same elements that pass a test, if the test does not tell related
elements apart and those that pass it are equal. -/
theorem filter_eq_of_forall₂ {α : Type} {related : α → α → Prop} {test : α → Bool} {l m : List α}
    (h : List.Forall₂ related l m) (htest : ∀ a b, related a b → test a = test b)
    (heq : ∀ a b, related a b → test a = true → a = b) : l.filter test = m.filter test := by
  induction h with
  | nil => rfl
  | @cons a b l m hab _ ih =>
    rw [List.filter_cons, List.filter_cons, ih, ← htest a b hab]
    split
    case isTrue hpass => rw [heq a b hab hpass]
    case isFalse => rfl

/-- What a search passes over anyway can be left out. -/
theorem findSome?_filter_of_none {α β : Type} {f : α → Option β} {test : α → Bool} {l : List α}
    (h : ∀ a ∈ l, test a = false → f a = none) : (l.filter test).findSome? f = l.findSome? f := by
  rw [← List.head?_filterMap, ← List.head?_filterMap, List.filterMap_filter]
  congr 1
  refine List.filterMap_congr fun a ha => ?_
  cases htest : test a with
  | true => rfl
  | false => exact (h a ha htest).symm

namespace Node

/-! ## Agreement in a view -/

/-- Two trees that look the same in some view at every position. In particular they have the same
positions. -/
def AgreesBy {α : Type} (view : Node → α) (one other : Node) : Prop :=
  ∀ p, (one.nodeAt? p).map view = (other.nodeAt? p).map view

namespace AgreesBy

variable {α : Type} {view : Node → α} {one other : Node}

theorem root_eq (h : one.AgreesBy view other) : view one = view other :=
  Option.some.inj (h [])

/-- The children agree one by one. -/
theorem children (h : one.AgreesBy view other) :
    List.Forall₂ (AgreesBy view) one.children other.children := by
  rw [forall₂_iff_getElem?]
  intro i
  have hbelow : ∀ p, (one.children[i]?.bind fun child => child.nodeAt? p).map view
      = (other.children[i]?.bind fun child => child.nodeAt? p).map view :=
    fun p => h (i :: p)
  -- A child on one side only would show at its own position.
  generalize one.children[i]? = child? at hbelow ⊢
  generalize other.children[i]? = otherChild? at hbelow ⊢
  cases child? with
  | none =>
    cases otherChild? with
    | none => exact .none
    | some otherChild => nomatch hbelow []
  | some child =>
    cases otherChild? with
    | none => nomatch hbelow []
    | some otherChild => exact .some hbelow

end AgreesBy

/-- A node without its children. -/
def label (node : Node) : Node :=
  { node with children := [] }

/-- Trees with the same labels are equal. -/
theorem eq_of_agreesBy_label {one other : Node} (h : one.AgreesBy label other) : one = other := by
  induction one using Node.induction generalizing other with
  | step node ih =>
    have hchildren : node.children = other.children := by
      rw [← List.forall₂_eq_eq_eq]
      exact forall₂_imp_of_mem h.children fun child hchild _ => ih child hchild
    have hroot := h.root_eq
    cases node
    cases other
    simp only [label, Node.mk.injEq, and_true] at hroot hchildren
    simp only [hroot, hchildren]

/-! ## Agreement off the bases -/

/-- What a node shows: a node without its type hints and its children. -/
def face (node : Node) : Node :=
  { node with hints := [], children := [] }

theorem face_eq_iff {one other : Node} :
    one.face = other.face ↔
      one.kind = other.kind ∧ one.role = other.role ∧ one.name = other.name ∧
        one.text = other.text ∧ one.modifiers = other.modifiers ∧
        one.attributes = other.attributes := by
  simp only [face, Node.mk.injEq, and_true]

/-- Whether a node declares a class, a structure or an interface. -/
def isClassLike (node : Node) : Bool :=
  node.kind.isClassLike

/-- Whether a node is a base type of its parent. -/
def isBase (node : Node) : Bool :=
  node.role = .baseType

/-- A position at or below a base type of a class. -/
def InBase (root : Node) (p : Position) : Prop :=
  ∃ q i, q ++ [i] <+: p ∧ root.holdsAt isClassLike q = true ∧
    root.holdsAt isBase (q ++ [i]) = true

/-- What a node shows and its type hints make up the node without its children. -/
theorem map_label_eq {one other : Option Node} (hface : one.map face = other.map face)
    (hhints : one.map hints = other.map hints) : one.map label = other.map label := by
  cases one with
  | none =>
    cases other with
    | none => rfl
    | some node => nomatch hface
  | some node =>
    cases other with
    | none => nomatch hface
    | some otherNode =>
      simp only [Option.map_some, Option.some.injEq, face, Node.mk.injEq, and_true] at hface hhints
      simp only [Option.map_some, label, hface, hhints]

/-- Two trees that show the same at every position and have the same type hints at and below the
base types of classes. -/
structure AgreesOffBases (one other : Node) : Prop where
  face_eq : ∀ p, (one.nodeAt? p).map face = (other.nodeAt? p).map face
  hints_eq : ∀ p, one.InBase p → (one.nodeAt? p).map hints = (other.nodeAt? p).map hints

/-- A position below a child is in a base if the child is one, or if it is so inside the child. -/
theorem inBase_cons_iff {node child : Node} {i : Nat} (hchild : node.children[i]? = some child)
    {p : Position} :
    node.InBase (i :: p) ↔
      node.isClassLike = true ∧ child.isBase = true ∨ child.InBase p := by
  constructor
  · rintro ⟨q, j, hq, hclass, hbase⟩
    cases q with
    | nil =>
      obtain ⟨rfl, -⟩ := List.cons_prefix_cons.1 hq
      rw [List.nil_append, holdsAt_cons hchild] at hbase
      exact Or.inl ⟨hclass, hbase⟩
    | cons k q =>
      rw [List.cons_append] at hq hbase
      obtain ⟨rfl, hinside⟩ := List.cons_prefix_cons.1 hq
      rw [holdsAt_cons hchild] at hclass hbase
      exact Or.inr ⟨q, j, hinside, hclass, hbase⟩
  · rintro (⟨hclass, hbase⟩ | ⟨q, j, hq, hclass, hbase⟩)
    · refine ⟨[], i, List.cons_prefix_cons.2 ⟨rfl, List.nil_prefix⟩, hclass, ?_⟩
      rw [List.nil_append, holdsAt_cons hchild]
      exact hbase
    · refine ⟨i :: q, j, List.cons_prefix_cons.2 ⟨rfl, hq⟩, ?_, ?_⟩
      · rw [holdsAt_cons hchild]
        exact hclass
      · rw [List.cons_append, holdsAt_cons hchild]
        exact hbase

/-- What the law asks of the children of two nodes, the first of which is a class or not. -/
def ChildAgrees (inClass : Bool) (one other : Node) : Prop :=
  one.AgreesOffBases other ∧ (inClass = true → one.isBase = true → one = other)

/-- The positions of a base type are all in it, so what agrees there is equal. -/
theorem childAgrees_of_agreesOffBases {one other child otherChild : Node} {i : Nat}
    (h : one.AgreesOffBases other) (hchild : one.children[i]? = some child)
    (hother : other.children[i]? = some otherChild) :
    ChildAgrees one.isClassLike child otherChild := by
  have hface : ∀ p, (child.nodeAt? p).map face = (otherChild.nodeAt? p).map face := by
    intro p
    rw [← nodeAt?_cons hchild, ← nodeAt?_cons hother]
    exact h.face_eq (i :: p)
  have hhints : ∀ p, one.InBase (i :: p) →
      (child.nodeAt? p).map hints = (otherChild.nodeAt? p).map hints := by
    intro p hp
    rw [← nodeAt?_cons hchild, ← nodeAt?_cons hother]
    exact h.hints_eq (i :: p) hp
  refine ⟨⟨hface, fun p hp => hhints p ((inBase_cons_iff hchild).2 (Or.inr hp))⟩, ?_⟩
  intro hclass hbase
  -- Below a base type no position is free, so the two trees have the same labels everywhere.
  apply eq_of_agreesBy_label
  intro p
  have hp : one.InBase (i :: p) := (inBase_cons_iff hchild).2 (Or.inl ⟨hclass, hbase⟩)
  exact map_label_eq (hface p) (hhints p hp)

theorem not_inBase_nil (root : Node) : ¬root.InBase [] := by
  rintro ⟨q, i, hprefix, -⟩
  rw [List.prefix_nil] at hprefix
  simp at hprefix

/-- Two trees look the same below a child if the children there do, or if there is none on either
side. -/
theorem map_nodeAt?_cons_eq {α : Type} {view : Node → α} {related : Node → Node → Prop}
    {one other : Node} {i : Nat} {p : Position}
    (hchild : Option.Rel related one.children[i]? other.children[i]?)
    (hbelow : ∀ child otherChild, one.children[i]? = some child → related child otherChild →
      (child.nodeAt? p).map view = (otherChild.nodeAt? p).map view) :
    (one.nodeAt? (i :: p)).map view = (other.nodeAt? (i :: p)).map view := by
  generalize hone : one.children[i]? = child? at hchild hbelow
  generalize hother : other.children[i]? = otherChild? at hchild
  cases hchild with
  | none => simp only [nodeAt?, hone, hother, Option.bind_none]
  | @some child otherChild hrelated =>
    rw [nodeAt?_cons hone, nodeAt?_cons hother]
    exact hbelow child otherChild rfl hrelated

/-- Trees agree off their bases if their roots show the same, their children agree off their bases,
and the base types of a class are equal. -/
theorem agreesOffBases_iff {one other : Node} :
    one.AgreesOffBases other ↔
      one.face = other.face ∧
        List.Forall₂ (ChildAgrees one.isClassLike) one.children other.children := by
  constructor
  · intro h
    have hface : one.AgreesBy face other := h.face_eq
    refine ⟨hface.root_eq, forall₂_iff_getElem?.2 fun i => ?_⟩
    have hchild := forall₂_iff_getElem?.1 hface.children i
    generalize hone : one.children[i]? = child? at hchild ⊢
    generalize hother : other.children[i]? = otherChild? at hchild ⊢
    cases hchild with
    | none => exact .none
    | some _ => exact .some (childAgrees_of_agreesOffBases h hone hother)
  · rintro ⟨hroot, hchildren⟩
    have hchild := forall₂_iff_getElem?.1 hchildren
    constructor
    · intro p
      cases p with
      | nil => exact congrArg some hroot
      | cons i p =>
        refine map_nodeAt?_cons_eq (hchild i) fun child otherChild _ hagrees => ?_
        exact hagrees.1.face_eq p
    · intro p hp
      cases p with
      | nil => exact absurd hp one.not_inBase_nil
      | cons i p =>
        refine map_nodeAt?_cons_eq (hchild i) fun child otherChild hone hagrees => ?_
        -- The base type is the child itself, and then the children are equal, or it is below.
        rcases (inBase_cons_iff hone).1 hp with ⟨hclass, hbase⟩ | hinside
        · rw [hagrees.2 hclass hbase]
        · exact hagrees.1.hints_eq p hinside

/-! ## What follows from agreement -/

theorem childAs?_eq_head? (node : Node) (role : Role) :
    node.childAs? role = (node.childrenAs role).head? :=
  List.head?_filter.symm

namespace AgreesOffBases

theorem refl (node : Node) : node.AgreesOffBases node :=
  ⟨fun _ => rfl, fun _ _ => rfl⟩

variable {one other : Node}

theorem root_eq (h : one.AgreesOffBases other) : one.face = other.face :=
  (agreesOffBases_iff.1 h).1

theorem kind_eq (h : one.AgreesOffBases other) : one.kind = other.kind :=
  (face_eq_iff.1 h.root_eq).1

theorem role_eq (h : one.AgreesOffBases other) : one.role = other.role :=
  (face_eq_iff.1 h.root_eq).2.1

theorem name_eq (h : one.AgreesOffBases other) : one.name = other.name :=
  (face_eq_iff.1 h.root_eq).2.2.1

theorem text_eq (h : one.AgreesOffBases other) : one.text = other.text :=
  (face_eq_iff.1 h.root_eq).2.2.2.1

theorem attributes_eq (h : one.AgreesOffBases other) : one.attributes = other.attributes :=
  (face_eq_iff.1 h.root_eq).2.2.2.2.2

theorem children (h : one.AgreesOffBases other) :
    List.Forall₂ AgreesOffBases one.children other.children :=
  (agreesOffBases_iff.1 h).2.imp fun _ _ hchild => hchild.1

/-- The children of some role agree one by one. -/
theorem childrenAs (h : one.AgreesOffBases other) (role : Role) :
    List.Forall₂ AgreesOffBases (one.childrenAs role) (other.childrenAs role) := by
  refine List.rel_filter (fun child otherChild hchild => ?_) h.children
  simp only [hchild.role_eq]

/-- The first children of some role agree, or there is none on either side. -/
theorem childAs? (h : one.AgreesOffBases other) (role : Role) :
    Option.Rel AgreesOffBases (one.childAs? role) (other.childAs? role) := by
  rw [childAs?_eq_head?, childAs?_eq_head?]
  exact head?_rel_of_forall₂ (h.childrenAs role)

theorem textAs_eq (h : one.AgreesOffBases other) (role : Role) :
    one.textAs role = other.textAs role := by
  have hchild := h.childAs? role
  rw [textAs, textAs]
  generalize one.childAs? role = child? at hchild ⊢
  generalize other.childAs? role = otherChild? at hchild ⊢
  cases hchild with
  | none => rfl
  | some hagrees => rw [Option.map_some, Option.map_some, hagrees.text_eq]

/-- The base types of a class are equal trees. -/
theorem bases_eq (h : one.AgreesOffBases other) (hclass : one.isClassLike = true) :
    one.childrenAs .baseType = other.childrenAs .baseType := by
  obtain ⟨-, hchildren⟩ := agreesOffBases_iff.1 h
  refine filter_eq_of_forall₂ hchildren ?_ ?_
  · intro child otherChild hchild
    rw [hchild.1.role_eq]
  · intro child otherChild hchild hbase
    exact hchild.2 hclass hbase

end AgreesOffBases

end Node

end Recast
