import Recast.Proofs.Fragment

/-!
# Cancelled builds

A build walks through the declarations of a tree in one order, whatever scopes they belong to
(`Node.processed`). What it yields is told by that walk (`result_fragments`): the first declaration
that cannot be built makes it fail, unless it is cancelled before it gets there; and if neither
happens it yields the same fragments as a build that is never cancelled. `fragments_cancelled` says
so for every moment of cancellation.

The patience of a build is counted over all scopes, and each scope starts with what the scopes in
front of it have left; `fault?_append` is the fact that makes the two countings one.
-/

set_option autoImplicit false

namespace Recast

/-- The declarations of a tree in the order in which they are built: owner by owner, enumerations
last in each. -/
def Node.processed (root : Node) : List Node :=
  root.nodesAt (root.owners.flatMap root.buildOrder)

namespace Build

/-! ## Faults of a walk -/

/-- The fault of a declaration that cannot be built. -/
def declFault? (node : Node) : Option BuildFault :=
  match (typeDecl node).result with
  | .ok _ => none
  | .error fault => some fault

/-- The fault of a walk through some declarations with some patience. -/
def fault? (patience : Option Nat) (decls : List Node) : Option BuildFault :=
  match patience with
  | none => decls.findSome? declFault?
  | some k =>
    ((decls.take k).findSome? declFault?).or (decls[k]?.map fun next => .cancelled next.name)

theorem fault?_nil (patience : Option Nat) : fault? patience [] = none := by
  cases patience <;> simp [fault?]

/-- Each declaration that is built takes one answer of the patience. -/
theorem fault?_cons {patience : Option Nat} (h : patience ≠ some 0) (node : Node)
    (nodes : List Node) :
    fault? patience (node :: nodes)
      = (declFault? node).or (fault? (patience.map (· - 1)) nodes) := by
  have hfirst : ∀ decls : List Node, (node :: decls).findSome? declFault?
      = (declFault? node).or (decls.findSome? declFault?) := by
    intro decls
    rw [List.findSome?_cons]
    cases declFault? node <;> rfl
  cases patience with
  | none => exact hfirst nodes
  | some k =>
    obtain ⟨k, rfl⟩ : ∃ m, k = m + 1 := ⟨k - 1, by have : k ≠ 0 := fun hk => h (hk ▸ rfl); omega⟩
    simp only [fault?, List.take_succ_cons, hfirst, List.getElem?_cons_succ, Option.map_some,
      Nat.add_sub_cancel, Option.or_assoc]

/-- A walk through two lists of declarations goes on in the second with the patience that the first
has left. -/
theorem fault?_append (patience : Option Nat) (nodes others : List Node) :
    fault? patience (nodes ++ others)
      = (fault? patience nodes).or (fault? (patience.map (· - nodes.length)) others) := by
  induction nodes generalizing patience with
  | nil =>
    have hpatience : patience.map (· - ([] : List Node).length) = patience := by
      cases patience <;> rfl
    rw [List.nil_append, fault?_nil, Option.none_or, hpatience]
  | cons node nodes ih =>
    by_cases h : patience = some 0
    · rw [h]
      rfl
    · have hpatience : (patience.map (· - 1)).map (· - nodes.length)
          = patience.map (· - (node :: nodes).length) := by
        rw [Option.map_map]
        congr 1
        funext k
        simp only [Function.comp_apply, List.length_cons]
        omega
      rw [List.cons_append, fault?_cons h, fault?_cons h, ih, hpatience, Option.or_assoc]

/-! ## What a walk yields -/

section Yields

variable {α β : Type}

/-- A fault if there is one, and else a result. -/
def faultOr (fault : Option BuildFault) (a : α) : Except BuildFault α :=
  match fault with
  | some fault => .error fault
  | none => .ok a

theorem faultOr_eq_error_iff {fault : Option BuildFault} {a : α} {e : BuildFault} :
    faultOr fault a = .error e ↔ fault = some e := by
  cases fault <;> simp [faultOr]

theorem result_cons_eq_faultOr {first : Traced BuildFault α} {rest : Traced BuildFault (List α)}
    {fault later : Option BuildFault} {a : α} {as : List α}
    (hfirst : first.result = faultOr fault a) (hrest : rest.result = faultOr later as) :
    (do return (← first) :: (← rest) : Traced BuildFault (List α)).result
      = faultOr (fault.or later) (a :: as) := by
  simp only [Traced.result_bind, hfirst, hrest, Traced.result_pure]
  cases fault with
  | some fault => rfl
  | none => cases later <;> rfl

end Yields

theorem result_typeDecl (node : Node) :
    (typeDecl node).result = faultOr (declFault? node) (typeOf node) := by
  rw [declFault?, typeOf]
  cases (typeDecl node).result <;> rfl

theorem result_typeDecls (patience : Option Nat) (nodes : List Node) :
    (typeDecls patience nodes).result = faultOr (fault? patience nodes) (nodes.map typeOf) := by
  induction nodes generalizing patience with
  | nil =>
    rw [fault?_nil]
    cases patience <;> rfl
  | cons node nodes ih =>
    by_cases h : patience = some 0
    · rw [h]
      rfl
    · have hstep : typeDecls patience (node :: nodes)
          = do return (← typeDecl node) :: (← typeDecls (patience.map (· - 1)) nodes) := by
        rw [typeDecls]
        exact h
      rw [hstep, fault?_cons h, List.map_cons]
      exact result_cons_eq_faultOr (result_typeDecl node) (ih _)

theorem result_fragment (patience : Option Nat) (scope : Scope) :
    (fragment patience scope).result
      = faultOr (fault? patience scope.ordered) (spaceOf scope) := by
  rw [fragment, Traced.result_bind, result_typeDecls]
  cases fault? patience scope.ordered <;> rfl

theorem length_ordered (scope : Scope) : scope.ordered.length = scope.decls.length := by
  have hsplit := List.length_eq_length_filter_add (l := scope.decls)
    (fun decl => decide (decl.kind = .enumDecl))
  rw [Scope.ordered, List.length_append, hsplit, Nat.add_comm]
  simp only [ne_eq, decide_not]

theorem result_fragmentsOf (patience : Option Nat) (scopes : List Scope) :
    (fragmentsOf patience scopes).result
      = faultOr (fault? patience (scopes.flatMap Scope.ordered)) (scopes.map spaceOf) := by
  induction scopes generalizing patience with
  | nil =>
    rw [List.flatMap_nil, fault?_nil]
    rfl
  | cons scope scopes ih =>
    rw [fragmentsOf, List.flatMap_cons, fault?_append, List.map_cons, length_ordered]
    exact result_cons_eq_faultOr (result_fragment patience scope) (ih _)

theorem processed_eq (root : Node) : root.processed = root.scopes.flatMap Scope.ordered := by
  rw [Node.processed, Node.nodesAt, List.filterMap_flatMap, Node.scopes_eq, List.flatMap_map]
  refine List.flatMap_congr fun owner _ => ?_
  exact (root.ordered_scopeOf owner).symm

/-- A build yields a fragment for each scope, if the walk through all declarations has no fault. -/
theorem result_fragments (patience : Option Nat) (root : Node) :
    (fragments patience root).result
      = faultOr (fault? patience root.processed) (root.scopes.map spaceOf) := by
  rw [processed_eq]
  exact result_fragmentsOf patience root.scopes

/-- A build that succeeds with some patience yields what it yields when it is never cancelled. -/
theorem fragments_none_eq_ok {patience : Option Nat} {root : Node} {spaces : List Namespace}
    (h : (fragments patience root).result = .ok spaces) :
    (fragments none root).result = .ok spaces := by
  cases patience with
  | none => exact h
  | some k =>
    have hnever : fault? (some k) root.processed = none → fault? none root.processed = none := by
      intro hfault
      rw [fault?, Option.or_eq_none_iff, Option.map_eq_none_iff, List.getElem?_eq_none_iff]
        at hfault
      obtain ⟨hfirst, hlength⟩ := hfault
      rw [List.take_of_length_le hlength] at hfirst
      exact hfirst
    rw [result_fragments] at h ⊢
    cases hfault : fault? (some k) root.processed with
    | some fault =>
      rw [hfault] at h
      cases h
    | none =>
      rw [hfault] at h
      rw [hnever hfault]
      exact h

/-! ## Moments of cancellation -/

/-- A walk that is not cancelled fails on a declaration: it is the first that cannot be built, and
`before` others come before it. -/
structure FailsOn (decls : List Node) (before : Nat) (fault : BuildFault) : Prop where
  fails : ∃ decl, decls[before]? = some decl ∧ (typeDecl decl).result = .error fault
  buildable : ∀ decl ∈ decls.take before, Buildable decl

theorem declFault?_eq_some_iff {node : Node} {fault : BuildFault} :
    declFault? node = some fault ↔ (typeDecl node).result = .error fault := by
  rw [result_typeDecl, faultOr_eq_error_iff]

theorem declFault?_eq_none_iff {node : Node} : declFault? node = none ↔ Buildable node := by
  rw [Buildable]
  simp only [← typeDecl_eq_ok_iff, declFault?]
  cases (typeDecl node).result <;> simp

/-- The fault of the first declarations is that of the one on which the walk fails. -/
theorem findSome?_take_eq_some_iff {decls : List Node} {k : Nat} {fault : BuildFault} :
    (decls.take k).findSome? declFault? = some fault ↔
      ∃ before, before < k ∧ FailsOn decls before fault := by
  rw [List.findSome?_eq_some_iff]
  simp only [declFault?_eq_some_iff, declFault?_eq_none_iff]
  constructor
  · rintro ⟨front, decl, back, htake, hfails, hbuildable⟩
    have hlength := congrArg List.length htake
    simp only [List.length_take, List.length_append, List.length_cons] at hlength
    have hlt : front.length < k := by omega
    refine ⟨front.length, hlt, ⟨decl, ?_, hfails⟩, ?_⟩
    · rw [← List.getElem?_take_of_lt hlt, htake]
      simp
    · have hfront : decls.take front.length = front := by
        have := congrArg (List.take front.length) htake
        rw [List.take_take, Nat.min_eq_left (Nat.le_of_lt hlt)] at this
        simpa using this
      rw [hfront]
      exact hbuildable
  · rintro ⟨before, hlt, ⟨decl, hdecl, hfails⟩, hbuildable⟩
    refine ⟨decls.take before, decl, (decls.take k).drop (before + 1), ?_, hfails, hbuildable⟩
    have hget : (decls.take k)[before]? = some decl := by
      rw [List.getElem?_take_of_lt hlt, hdecl]
    obtain ⟨hlength, hvalue⟩ := List.getElem?_eq_some_iff.1 hget
    calc decls.take k
        = (decls.take k).take before ++ (decls.take k).drop before :=
          (List.take_append_drop before _).symm
      _ = decls.take before ++ decl :: (decls.take k).drop (before + 1) := by
          rw [List.take_take, Nat.min_eq_left (Nat.le_of_lt hlt), List.drop_eq_getElem_cons hlength,
            hvalue]

theorem findSome?_eq_some_iff_failsOn {decls : List Node} {fault : BuildFault} :
    decls.findSome? declFault? = some fault ↔ ∃ before, FailsOn decls before fault := by
  have htake := @findSome?_take_eq_some_iff decls decls.length fault
  rw [List.take_length] at htake
  rw [htake]
  constructor
  · rintro ⟨before, -, hfails⟩
    exact ⟨before, hfails⟩
  · rintro ⟨before, hfails⟩
    obtain ⟨decl, hdecl, -⟩ := hfails.fails
    exact ⟨before, (List.getElem?_eq_some_iff.1 hdecl).1, hfails⟩

/-- A walk that is cancelled with patience `k` fails like the whole walk, if that fails on one of
the first `k` declarations, and else before the next one, if there is one. -/
theorem fault?_some_eq_some_iff {decls : List Node} {k : Nat} {fault : BuildFault} :
    fault? (some k) decls = some fault ↔
      (∃ before, before < k ∧ FailsOn decls before fault) ∨
        (¬∃ before other, before < k ∧ FailsOn decls before other) ∧
          ∃ next, decls[k]? = some next ∧ fault = .cancelled next.name := by
  rw [fault?]
  cases hfirst : (decls.take k).findSome? declFault? with
  | some other =>
    obtain ⟨before, hlt, hother⟩ := findSome?_take_eq_some_iff.1 hfirst
    rw [← findSome?_take_eq_some_iff, hfirst]
    constructor
    · exact fun h => .inl h
    · rintro (h | ⟨hnone, -⟩)
      · exact h
      · exact absurd ⟨before, other, hlt, hother⟩ hnone
  | none =>
    have hnone : ¬∃ before other, before < k ∧ FailsOn decls before other := by
      rintro ⟨before, other, hlt, hother⟩
      have hsome := findSome?_take_eq_some_iff.2 ⟨before, hlt, hother⟩
      rw [hfirst] at hsome
      cases hsome
    rw [← findSome?_take_eq_some_iff, hfirst, Option.none_or, Option.map_eq_some_iff]
    simp only [reduceCtorEq, false_or, hnone, not_false_eq_true, true_and]
    simp only [eq_comm]

theorem fragments_none_eq_error_iff {root : Node} {fault : BuildFault} :
    (fragments none root).result = .error fault ↔
      ∃ before, FailsOn root.processed before fault := by
  rw [result_fragments, faultOr_eq_error_iff]
  exact findSome?_eq_some_iff_failsOn

theorem fragments_some_eq_error_iff {root : Node} {k : Nat} {fault : BuildFault} :
    (fragments (some k) root).result = .error fault ↔
      (∃ before, before < k ∧ FailsOn root.processed before fault) ∨
        (¬∃ before other, before < k ∧ FailsOn root.processed before other) ∧
          ∃ next, root.processed[k]? = some next ∧ fault = .cancelled next.name := by
  rw [result_fragments, faultOr_eq_error_iff]
  exact fault?_some_eq_some_iff

/-- A build that is not cancelled before its last declaration is like one that never is. -/
theorem exists_fragments_eq_ok {root : Node} {k : Nat} (hlength : root.processed.length ≤ k)
    (h : ¬∃ before fault, before < k ∧ FailsOn root.processed before fault) :
    ∃ spaces, (fragments none root).result = .ok spaces ∧
      (fragments (some k) root).result = .ok spaces := by
  have hcancelled : fault? (some k) root.processed = none := by
    rw [Option.eq_none_iff_forall_ne_some]
    intro fault hfault
    rcases fault?_some_eq_some_iff.1 hfault with ⟨before, hlt, hfails⟩ | ⟨-, next, hnext, -⟩
    · exact h ⟨before, fault, hlt, hfails⟩
    · have hlt := (List.getElem?_eq_some_iff.1 hnext).1
      omega
  have hok : (fragments (some k) root).result = .ok (root.scopes.map spaceOf) := by
    rw [result_fragments, hcancelled]
    rfl
  exact ⟨_, fragments_none_eq_ok hok, hok⟩

/-- The first declaration that is built is the first one of the first owner that has any. -/
theorem exists_processed_zero {root : Node} {front back : List (Option Position)}
    {owner : Option Position} {p : Position} {later : List Position}
    (howners : root.owners = front ++ owner :: back)
    (hfront : ∀ other ∈ front, root.buildOrder other = [])
    (horder : root.buildOrder owner = p :: later) :
    ∃ node, root.processed[0]? = some node ∧ node.name = root.nameAt p := by
  have hp : p ∈ root.positions := by
    have hmem : p ∈ root.buildOrder owner := by
      rw [horder]
      exact List.mem_cons_self
    exact Node.mem_positions_of_mem_buildOrder hmem
  obtain ⟨node, hnode⟩ := Option.isSome_iff_exists.1 (Node.mem_positions_iff.1 hp)
  refine ⟨node, ?_, ?_⟩
  · rw [Node.processed, howners, List.flatMap_append, List.flatMap_eq_nil_iff.2 hfront,
      List.nil_append, List.flatMap_cons, horder, List.cons_append, Node.nodesAt,
      List.filterMap_cons_some hnode]
    rfl
  · rw [Node.nameAt, hnode]
    rfl

theorem processed_eq_nil {root : Node} (h : ∀ p, root.holdsAt Node.isDecl p = false) :
    root.processed = [] := by
  have hnone : root.owners.flatMap root.buildOrder = [] := by
    rw [List.flatMap_eq_nil_iff]
    intro owner _
    rw [List.eq_nil_iff_forall_not_mem]
    intro p hp
    have hdecl := (Node.mem_ownedDecls_iff.1 (Node.mem_ownedDecls_of_mem_buildOrder hp)).1
    rw [h p] at hdecl
    cases hdecl
  rw [Node.processed, hnone]
  rfl

/-- Cancellation has an effect between two types only. With patience `k`, a build fails like one
that is never cancelled if that fails on one of the first `k` declarations; else it yields the same
fragments if there are no more, and is cancelled before the next declaration if there are. -/
theorem fragments_cancelled (root : Node) (k : Nat) :
    (∀ fault, (fragments none root).result = .error fault ↔
        ∃ before, FailsOn root.processed before fault) ∧
      (∀ before fault, FailsOn root.processed before fault → before < k →
        (∃ names, fault = .fieldBindings names) ∧
          (fragments (some k) root).result = .error fault) ∧
      ((¬∃ before fault, before < k ∧ FailsOn root.processed before fault) →
        (root.processed.length ≤ k →
          ∃ spaces, (fragments none root).result = .ok spaces ∧
            (fragments (some k) root).result = .ok spaces) ∧
        ∀ next, root.processed[k]? = some next →
          (fragments (some k) root).result = .error (.cancelled next.name)) ∧
      (∀ front owner back p later, root.owners = front ++ owner :: back →
        (∀ other ∈ front, root.buildOrder other = []) → root.buildOrder owner = p :: later →
          (fragments (some 0) root).result = .error (.cancelled (root.nameAt p))) ∧
      ((∀ p, root.holdsAt Node.isDecl p = false) →
        ∃ spaces, (fragments none root).result = .ok spaces ∧
          (fragments (some 0) root).result = .ok spaces) := by
  -- Before the first question nothing can fail.
  have hstart : ¬∃ before fault, before < 0 ∧ FailsOn root.processed before fault := by
    rintro ⟨before, fault, hlt, -⟩
    omega
  refine ⟨fun fault => fragments_none_eq_error_iff, ?_, ?_, ?_, ?_⟩
  · intro before fault hfails hlt
    have hnever := fragments_none_eq_error_iff.2 ⟨before, hfails⟩
    exact ⟨failsByBindings_fragmentsOf root.scopes fault hnever,
      fragments_some_eq_error_iff.2 (.inl ⟨before, hlt, hfails⟩)⟩
  · intro hnone
    refine ⟨fun hlength => exists_fragments_eq_ok hlength hnone, ?_⟩
    intro next hnext
    exact fragments_some_eq_error_iff.2 (.inr ⟨hnone, next, hnext, rfl⟩)
  · intro front owner back p later howners hfront horder
    obtain ⟨node, hnode, hname⟩ := exists_processed_zero howners hfront horder
    rw [← hname]
    exact fragments_some_eq_error_iff.2 (.inr ⟨hstart, node, hnode, rfl⟩)
  · intro hdecls
    have hlength : root.processed.length ≤ 0 := by simp [processed_eq_nil hdecls]
    exact exists_fragments_eq_ok hlength hstart

/-- A tree in which the second of four declarations cannot be built; it is built in front of an
enumeration that stands before it. -/
def brokenUnit : Node :=
  { kind := .namespaceDecl, name := "N", children := [
      { kind := .enumDecl, name := "E" },
      { kind := .classDecl, name := "C" },
      { kind := .classDecl, name := "Bad", children := [
          { kind := .fieldDecl, children := [
              { kind := .variableDecl, role := .binding, text := "a" },
              { kind := .variableDecl, role := .binding, text := "b = 1" }] }] },
      { kind := .classDecl, name := "D" }] }

theorem fragments_cancelled_brokenUnit :
    (fragments (some 2) brokenUnit).result = .error (.fieldBindings ["a", "b"]) ∧
      (fragments (some 1) brokenUnit).result = .error (.cancelled "Bad") ∧
      (fragments (some 0) brokenUnit).result = .error (.cancelled "C") ∧
      ∃ spaces, (fragments none {}).result = .ok spaces ∧
        (fragments (some 0) {}).result = .ok spaces := by
  have hbuilt : Buildable { kind := .classDecl, name := "C" } :=
    ⟨.ofClass { name := "C" }, typeDecl_eq_ok_iff.1 rfl⟩
  have hfails : FailsOn brokenUnit.processed 1 (.fieldBindings ["a", "b"]) :=
    ⟨⟨_, rfl, by rfl⟩, List.forall_mem_singleton.2 hbuilt⟩
  have hnone : ¬∃ before fault, before < 1 ∧ FailsOn brokenUnit.processed before fault := by
    rintro ⟨before, fault, hlt, ⟨decl, hdecl, herror⟩, -⟩
    obtain rfl : before = 0 := by omega
    obtain rfl : _ = decl := Option.some.inj hdecl
    cases herror
  have hdecls : ∀ p, Node.holdsAt {} Node.isDecl p = false := by
    rintro (_ | ⟨i, p⟩) <;> rfl
  obtain ⟨-, hsame, -, -, -⟩ := fragments_cancelled brokenUnit 2
  obtain ⟨-, -, hnext, hfirst, -⟩ := fragments_cancelled brokenUnit 1
  obtain ⟨-, -, -, -, hempty⟩ := fragments_cancelled {} 0
  refine ⟨(hsame 1 _ hfails (by decide)).2, (hnext hnone).2 _ rfl, ?_, hempty hdecls⟩
  exact hfirst [] (some []) [] [1] [[2], [3], [0]] (by rfl) (by simp) (by rfl)

end Build

end Recast
