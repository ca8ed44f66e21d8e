import Recast.Listing
import Recast.Proofs.Fragment
import Recast.Proofs.Merge
import Recast.Proofs.Pipeline
import Recast.Proofs.Workers

/-!
# How an input is cut into units

An input can be built as one tree, or its top-level declarations can be built as a unit each. Both
ways find the same declarations under each name (`filter_declsNamed_scopes`): those of a named
namespace in the same order, those outside of all namespaces in the same order up to the place of
the enumerations, which stand behind the classes of each unit. A listing prints classes first in any
case, so after merging the listings agree (`listing_units_children`), unless a class and an
enumeration outside of all namespaces share a name: then the one that is declared last takes the
place of the other, and which one is last depends on the units.
-/

set_option autoImplicit false

namespace Recast

/-- Lists that have the same elements of each of two sorts, in order, have the same elements. -/
theorem mem_iff_of_filter_eq {α : Type} {isEnum : α → Bool} {first next : List α}
    (h : ∀ sort, (first.filter fun x => isEnum x = sort) = next.filter fun x => isEnum x = sort)
    {x : α} : x ∈ first ↔ x ∈ next := by
  have hfilter : ∀ l : List α, x ∈ l ↔ x ∈ l.filter fun y => isEnum y = isEnum x := by
    intro l
    rw [List.mem_filter, decide_eq_true_iff, and_iff_left rfl]
  rw [hfilter first, h, ← hfilter next]

/-! ## Namespaces with the same listing -/

/-- Two namespaces with the same name, the same classes and the same enumerations, each in the same
order. -/
structure Namespace.Alike (one other : Namespace) : Prop where
  name_eq : one.name = other.name
  classes_eq : one.classes = other.classes
  enums_eq : one.enums = other.enums

namespace Namespace

theorem enums_mapClasses (f : ClassDecl → ClassDecl) (space : Namespace) :
    (space.mapClasses f).enums = space.enums := by
  rw [enums, mapClasses, List.filterMap_map, enums]
  refine List.filterMap_congr fun type _ => ?_
  cases type <;> rfl

theorem Alike.mapClasses {one other : Namespace} (h : one.Alike other)
    (f : ClassDecl → ClassDecl) : (one.mapClasses f).Alike (other.mapClasses f) := by
  refine ⟨h.name_eq, ?_, ?_⟩
  · rw [classes_mapClasses, classes_mapClasses, h.classes_eq]
  · rw [enums_mapClasses, enums_mapClasses, h.enums_eq]

theorem Alike.listing_eq {one other : Namespace} (h : one.Alike other) :
    Listing.space one = Listing.space other := by
  rw [Listing.space, Listing.space, h.name_eq, h.classes_eq, h.enums_eq]

theorem filterMap_class?_eq (types : List TypeDecl) :
    types.filterMap TypeDecl.class?
      = (types.filter fun type => type.isEnum = false).filterMap TypeDecl.class? := by
  rw [List.filterMap_filter]
  refine List.filterMap_congr fun type _ => ?_
  cases type <;> rfl

theorem filterMap_enum?_eq (types : List TypeDecl) :
    types.filterMap TypeDecl.enum?
      = (types.filter fun type => type.isEnum = true).filterMap TypeDecl.enum? := by
  rw [List.filterMap_filter]
  refine List.filterMap_congr fun type _ => ?_
  cases type <;> rfl

/-- If no class shares its name with an enumeration, then the classes and the enumerations among
some types are put apart from each other. -/
theorem alike_putTypes (name : Option String) {first next : List TypeDecl}
    (hparts : ∀ sort, (first.filter fun type => type.isEnum = sort)
      = next.filter fun type => type.isEnum = sort)
    (hnames : ∀ one ∈ first, ∀ other ∈ first, one.name = other.name → one.isEnum = other.isEnum) :
    (({ name } : Namespace).putTypes first).Alike (({ name } : Namespace).putTypes next) := by
  have hmem : ∀ type ∈ next, type ∈ first := fun type => (mem_iff_of_filter_eq hparts).2
  have hput : ∀ sort, ((Keyed.putAll TypeDecl.name first).filter fun type => type.isEnum = sort)
      = (Keyed.putAll TypeDecl.name next).filter fun type => type.isEnum = sort := by
    intro sort
    rw [Keyed.filter_putAll, Keyed.filter_putAll, hparts]
    · intro one hone other hother heq
      rw [hnames one (hmem one hone) other (hmem other hother) heq]
    · intro one hone other hother heq
      rw [hnames one hone other hother heq]
  rw [putTypes_nil_eq, putTypes_nil_eq]
  refine ⟨rfl, ?_, ?_⟩
  · rw [classes, filterMap_class?_eq, hput, ← filterMap_class?_eq, classes]
  · rw [enums, filterMap_enum?_eq, hput, ← filterMap_enum?_eq, enums]

end Namespace

/-! ## Declarations by name -/

/-- The declarations of all scopes of some name, in the order of building. -/
def declsNamed (scopes : List Scope) (name : Option String) : List Node :=
  (scopes.filter fun scope => scope.name = name).flatMap Scope.ordered

theorem declsNamed_flatMap {α : Type} (l : List α) (scopes : α → List Scope)
    (name : Option String) :
    declsNamed (l.flatMap scopes) name = l.flatMap fun a => declsNamed (scopes a) name := by
  rw [declsNamed, List.filter_flatMap, List.flatMap_assoc]
  rfl

theorem mem_declsNamed_iff {scopes : List Scope} {name : Option String} {node : Node} :
    node ∈ declsNamed scopes name ↔ ∃ scope ∈ scopes, scope.name = name ∧ node ∈ scope.decls := by
  rw [declsNamed, List.mem_flatMap]
  simp only [List.mem_filter, decide_eq_true_iff, Build.mem_ordered_iff, and_assoc]

/-- Of one sort, the declarations of a scope are built in their order. -/
theorem filter_ordered (scope : Scope) (sort : Bool) :
    (scope.ordered.filter fun node => node.isEnum = sort)
      = scope.decls.filter fun node => node.isEnum = sort := by
  have hkind : ∀ node : Node, decide (node.kind = .enumDecl) = node.isEnum := fun _ => rfl
  rw [Scope.ordered, List.filter_append, List.filter_filter, List.filter_filter]
  simp only [decide_not, hkind]
  cases sort <;> simp

namespace Node

theorem name_ne_none_of_mem_found {root : Node} {outer : String} {scope : Scope}
    (h : scope ∈ (root.found outer).scopes) : scope.name ≠ none := by
  rw [found_scopes] at h
  obtain ⟨p, -, rfl⟩ := List.mem_map.1 h
  exact Option.some_ne_none _

/-- Under a name, a tree declares what is found in its namespaces of that name. -/
theorem declsNamed_scopes_some (root : Node) (name : String) :
    declsNamed root.scopes (some name) = declsNamed (root.found "").scopes (some name) := by
  rw [scopes]
  split
  · rfl
  · rfl

/-- Without a name, a tree declares what is found outside of its namespaces. -/
theorem declsNamed_scopes_none (root : Node) :
    declsNamed root.scopes none
      = ({ name := none, decls := (root.found "").decls } : Scope).ordered := by
  have hnamed : (root.found "").scopes.filter (fun scope => scope.name = none) = [] := by
    rw [List.filter_eq_nil_iff]
    intro scope hscope hname
    exact name_ne_none_of_mem_found hscope (of_decide_eq_true hname)
  rw [scopes]
  split
  case isTrue h =>
    rw [Bool.and_eq_true, List.isEmpty_iff] at h
    rw [declsNamed, hnamed, h.1]
    rfl
  case isFalse =>
    rw [declsNamed, List.filter_cons, if_pos (decide_eq_true rfl), hnamed, List.flatMap_cons,
      List.flatMap_nil, List.append_nil]

/-- A tree that is neither a namespace nor a declaration has what its children have. -/
theorem found_eq_flatMap_children {root : Node} (hspace : root.isSpace = false)
    (hdecl : root.isDecl = false) (outer : String) :
    root.found outer
      = { decls := root.children.flatMap fun child => (child.found outer).decls
          scopes := root.children.flatMap fun child => (child.found outer).scopes } := by
  rw [found_of_not_isSpace hspace, hdecl, if_neg Bool.false_ne_true, List.nil_append,
    foundAll_decls, foundAll_scopes]

/-- Under a name, a tree and its children declare the same in the same order. -/
theorem declsNamed_scopes_children_some {root : Node} (hspace : root.isSpace = false)
    (hdecl : root.isDecl = false) (name : String) :
    declsNamed root.scopes (some name) = declsNamed (root.children.flatMap scopes) (some name) := by
  rw [declsNamed_scopes_some, found_eq_flatMap_children hspace hdecl, declsNamed_flatMap,
    declsNamed_flatMap]
  exact List.flatMap_congr fun child _ => (declsNamed_scopes_some child name).symm

/-- Of one sort, a tree and its children declare the same under each name, in the same order. -/
theorem filter_declsNamed_scopes {root : Node} (hspace : root.isSpace = false)
    (hdecl : root.isDecl = false) (name : Option String) (sort : Bool) :
    ((declsNamed root.scopes name).filter fun node => node.isEnum = sort)
      = (declsNamed (root.children.flatMap scopes) name).filter fun node =>
          node.isEnum = sort := by
  cases name with
  | some name => rw [declsNamed_scopes_children_some hspace hdecl]
  | none =>
    -- Each unit puts its own enumerations last, which does not show among one sort.
    rw [declsNamed_flatMap]
    simp only [declsNamed_scopes_none, found_eq_flatMap_children hspace hdecl, List.filter_flatMap,
      filter_ordered]

theorem mem_declsNamed_scopes_iff {root : Node} (hspace : root.isSpace = false)
    (hdecl : root.isDecl = false) {name : Option String} {node : Node} :
    node ∈ declsNamed root.scopes name ↔
      node ∈ declsNamed (root.children.flatMap scopes) name :=
  mem_iff_of_filter_eq (filter_declsNamed_scopes hspace hdecl name)

/-- Under the name of its owner, a tree declares what stands at a position. -/
theorem exists_mem_declsNamed_owner? {root : Node} {p : Position}
    (h : root.holdsAt isDecl p = true) :
    ∃ node, node ∈ declsNamed root.scopes ((root.owner? p).map root.fullName) := by
  have hp : p ∈ root.ownedDecls (root.owner? p) := mem_ownedDecls_iff.2 ⟨h, rfl⟩
  obtain ⟨node, hnode⟩ :=
    Option.isSome_iff_exists.1 (mem_positions_iff.1 (mem_positions_of_mem_ownedDecls hp))
  refine ⟨node, mem_declsNamed_iff.2 ⟨root.scopeOf (root.owner? p), ?_, rfl, ?_⟩⟩
  · rw [scopes_eq]
    exact List.mem_map_of_mem (owner?_mem_owners h)
  · exact List.mem_filterMap.2 ⟨p, hp, hnode⟩

/-- If no position outside of all namespaces gives the name of a class to an enumeration, then no
declaration without an owner does. -/
theorem isEnum_eq_of_mem_declsNamed_none {root : Node}
    (hnames : ∀ p ∈ root.ownedDecls none, ∀ q ∈ root.ownedDecls none,
      root.holdsAt isEnum p = true → root.holdsAt isEnum q = false → root.nameAt p ≠ root.nameAt q)
    {one other : Node} (hone : one ∈ declsNamed root.scopes none)
    (hother : other ∈ declsNamed root.scopes none) (hname : one.name = other.name) :
    one.isEnum = other.isEnum := by
  have hposition : ∀ node ∈ declsNamed root.scopes none, ∃ p ∈ root.ownedDecls none,
      root.holdsAt isEnum p = node.isEnum ∧ root.nameAt p = node.name := by
    intro node hnode
    rw [declsNamed_scopes_none, Build.mem_ordered_iff, found_decls] at hnode
    obtain ⟨p, hp, hnode⟩ := List.mem_filterMap.1 hnode
    refine ⟨p, hp, ?_, ?_⟩
    · rw [holdsAt, hnode, Option.any_some]
    · rw [nameAt, hnode, Option.map_some, Option.getD_some]
  obtain ⟨p, hp, hpenum, hpname⟩ := hposition one hone
  obtain ⟨q, hq, hqenum, hqname⟩ := hposition other hother
  have hpq := hnames p hp q hq
  have hqp := hnames q hq p hp
  rw [hpenum, hqenum, hpname, hqname] at hpq hqp
  cases honeEnum : one.isEnum with
  | true =>
    cases hotherEnum : other.isEnum with
    | true => rfl
    | false => exact absurd hname (hpq honeEnum hotherEnum)
  | false =>
    cases hotherEnum : other.isEnum with
    | true => exact absurd hname.symm (hqp hotherEnum honeEnum)
    | false => rfl

end Node

/-! ## Building units -/

namespace Build

variable {workers : Workers} {jobs : Nat}

/-- If there are workers, units are built by gathering the fragments of each. -/
theorem result_unitsWithJobs (hstarts : workers.Starts jobs) (roots : List Node) :
    (unitsWithJobs workers jobs roots).result
      = List.flatten <$> (workers.gather (roots.map (fragments none))).result := by
  rw [unitsWithJobs, hstarts, Traced.result_bind]
  cases (workers.gather (roots.map (fragments none))).result <;> rfl

theorem starts_of_unitsWithJobs {roots : List Node} {spaces : List Namespace}
    (h : (unitsWithJobs workers jobs roots).result = .ok spaces) : workers.Starts jobs := by
  rw [unitsWithJobs] at h
  split at h
  · cases h
  · assumption

/-- Each of several trees is built into its fragments if all their declarations can be built. -/
theorem exists_forall₂_fragments_iff {roots : List Node} {spaces : List Namespace} :
    (∃ made, List.Forall₂ (fun root built => (fragments none root).result = .ok built) roots made ∧
        made.flatten = spaces) ↔
      (∀ scope ∈ roots.flatMap Node.scopes, ∀ node ∈ scope.decls, Buildable node) ∧
        spaces = (roots.flatMap Node.scopes).map spaceOf := by
  induction roots generalizing spaces with
  | nil => simp [eq_comm]
  | cons root roots ih =>
    rw [List.flatMap_cons, List.forall_mem_append, List.map_append]
    constructor
    · rintro ⟨made, hmade, rfl⟩
      obtain ⟨built, rest, hbuilt, hrest, rfl⟩ := List.forall₂_cons_left_iff.1 hmade
      obtain ⟨hroot, rfl⟩ := fragmentsOf_eq_ok_iff_buildable.1 hbuilt
      obtain ⟨hroots, hspaces⟩ := ih.1 ⟨rest, hrest, rfl⟩
      exact ⟨⟨hroot, hroots⟩, by rw [List.flatten_cons, hspaces]⟩
    · rintro ⟨⟨hroot, hroots⟩, rfl⟩
      obtain ⟨rest, hrest, hspaces⟩ := ih.2 ⟨hroots, rfl⟩
      have hbuilt := fragmentsOf_eq_ok_iff_buildable.2 ⟨hroot, rfl⟩
      exact ⟨_, .cons hbuilt hrest, by rw [List.flatten_cons, hspaces]⟩

/-- Units are built if there are workers and all declarations can be built. -/
theorem unitsWithJobs_eq_ok_iff {roots : List Node} {spaces : List Namespace} :
    (unitsWithJobs workers jobs roots).result = .ok spaces ↔
      workers.Starts jobs ∧
        (∀ scope ∈ roots.flatMap Node.scopes, ∀ node ∈ scope.decls, Buildable node) ∧
          spaces = (roots.flatMap Node.scopes).map spaceOf := by
  rw [← exists_forall₂_fragments_iff]
  have hgather : workers.Starts jobs → ((unitsWithJobs workers jobs roots).result = .ok spaces ↔
      ∃ made, List.Forall₂ (fun root built => (fragments none root).result = .ok built) roots made ∧
        made.flatten = spaces) := by
    intro hstarts
    rw [result_unitsWithJobs hstarts, ← Traced.result_map, Traced.result_map_eq_ok_iff]
    simp only [Workers.result_gather_eq_ok_iff, List.forall₂_map_left_iff]
  constructor
  · intro h
    have hstarts := starts_of_unitsWithJobs h
    exact ⟨hstarts, (hgather hstarts).1 h⟩
  · rintro ⟨hstarts, hmade⟩
    exact (hgather hstarts).2 hmade

/-- What some workers build, all others build that are there. -/
theorem result_unitsWithJobs_of_starts {other : Workers} {jobs' : Nat} {roots : List Node}
    {spaces : List Namespace} (h : (unitsWithJobs workers jobs roots).result = .ok spaces)
    (hstarts : other.Starts jobs') : (unitsWithJobs other jobs' roots).result = .ok spaces :=
  unitsWithJobs_eq_ok_iff.2 ⟨hstarts, (unitsWithJobs_eq_ok_iff.1 h).2⟩

/-- If units fail to be built by workers that are there, one of them fails to be built by itself. -/
theorem exists_of_unitsWithJobs_eq_error (hstarts : workers.Starts jobs) {roots : List Node}
    {fault : BuildFault} (h : (unitsWithJobs workers jobs roots).result = .error fault) :
    ∃ (place : Nat) (root : Node), roots[place]? = some root ∧
      (fragments none root).result = .error fault := by
  rw [result_unitsWithJobs hstarts] at h
  have hgather : (workers.gather (roots.map (fragments none))).result = .error fault := by
    cases hresult : (workers.gather (roots.map (fragments none))).result with
    | ok made =>
      rw [hresult] at h
      cases h
    | error other =>
      rw [hresult] at h
      obtain rfl : other = fault := Except.error.inj h
      rfl
  obtain ⟨work, hwork, hfault⟩ :=
    Workers.faultAt?_eq_some_iff.1 (Workers.result_gather_eq_error_iff.1 hgather)
  rw [List.getElem?_map] at hwork
  obtain ⟨root, hroot, rfl⟩ := Option.map_eq_some_iff.1 hwork
  exact ⟨_, root, hroot, hfault⟩

theorem failsByBindings_unitsWithJobs (hstarts : workers.Starts jobs) (roots : List Node) :
    FailsByBindings (unitsWithJobs workers jobs roots) := by
  intro fault hfault
  obtain ⟨-, root, -, hroot⟩ := exists_of_unitsWithJobs_eq_error hstarts hfault
  exact failsByBindings_fragmentsOf root.scopes fault hroot

theorem exists_fieldBindings_unitsWithJobs_iff (hstarts : workers.Starts jobs)
    {roots : List Node} :
    (∃ names, (unitsWithJobs workers jobs roots).result = .error (.fieldBindings names)) ↔
      ¬∀ name, ∀ node ∈ declsNamed (roots.flatMap Node.scopes) name, Buildable node := by
  rw [exists_fieldBindings_iff (failsByBindings_unitsWithJobs hstarts roots), not_iff_not]
  simp only [unitsWithJobs_eq_ok_iff, hstarts, true_and, exists_and_left, exists_eq, and_true,
    mem_declsNamed_iff]
  constructor
  · rintro h name node ⟨scope, hscope, -, hnode⟩
    exact h scope hscope node hnode
  · intro h scope hscope node hnode
    exact h scope.name node ⟨scope, hscope, rfl, hnode⟩

/-! ## The types of declarations -/

theorem name_typeOf (node : Node) : (typeOf node).name = node.name := by
  rw [typeOf]
  cases h : (typeDecl node).result with
  | ok type => exact (typeDecl_eq_ok_iff.1 h).name_eq
  | error fault => rfl

theorem isEnum_typeOf (node : Node) : (typeOf node).isEnum = node.isEnum := by
  rw [typeOf]
  cases h : (typeDecl node).result with
  | ok type => exact (typeDecl_eq_ok_iff.1 h).isEnum_eq
  | error fault =>
    cases henum : node.isEnum with
    | false => rfl
    | true =>
      -- An enumeration can always be built.
      rw [typeDecl_eq_ok_iff.2 (.ofEnum henum)] at h
      cases h

theorem typesNamed_map_spaceOf (scopes : List Scope) (name : Option String) :
    typesNamed (scopes.map spaceOf) name = (declsNamed scopes name).map typeOf := by
  rw [typesNamed, List.filter_map, List.flatMap_map, declsNamed, List.map_flatMap]
  rfl

theorem filter_map_typeOf (nodes : List Node) (sort : Bool) :
    ((nodes.map typeOf).filter fun type => type.isEnum = sort)
      = (nodes.filter fun node => node.isEnum = sort).map typeOf := by
  rw [List.filter_map]
  congr 1
  refine List.filter_congr fun node _ => ?_
  rw [Function.comp_apply, isEnum_typeOf]

/-- After merging, a tree and its children have alike namespaces of each name. -/
theorem alike_units_children {root : Node} (hspace : root.isSpace = false)
    (hdecl : root.isDecl = false)
    (hnames : ∀ p ∈ root.ownedDecls none, ∀ q ∈ root.ownedDecls none,
      root.holdsAt Node.isEnum p = true → root.holdsAt Node.isEnum q = false →
        root.nameAt p ≠ root.nameAt q) (name : Option String) :
    (({ name } : Namespace).putTypes ((declsNamed root.scopes name).map typeOf)).Alike
      (({ name } : Namespace).putTypes
        ((declsNamed (root.children.flatMap Node.scopes) name).map typeOf)) := by
  cases name with
  | some name =>
    rw [Node.declsNamed_scopes_children_some hspace hdecl]
    exact ⟨rfl, rfl, rfl⟩
  | none =>
    refine Namespace.alike_putTypes none ?_ ?_
    · intro sort
      rw [filter_map_typeOf, filter_map_typeOf, Node.filter_declsNamed_scopes hspace hdecl]
    · intro one hone other hother hname
      obtain ⟨oneNode, honeNode, rfl⟩ := List.mem_map.1 hone
      obtain ⟨otherNode, hotherNode, rfl⟩ := List.mem_map.1 hother
      rw [name_typeOf, name_typeOf] at hname
      rw [isEnum_typeOf, isEnum_typeOf]
      exact Node.isEnum_eq_of_mem_declsNamed_none hnames honeNode hotherNode hname

/-- A tree that is neither a namespace nor a declaration can be built as a whole or child by child,
by whatever workers there are: both builds fail or none does, and the merged namespaces have the
same listings, before and after the usual passes. -/
theorem listing_units_children (root : Node) (hspace : root.kind ≠ .namespaceDecl)
    (hdecl : root.kind.isTypeDeclaration = false) (workers workers' : Workers) (jobs jobs' : Nat) :
    (workers.Starts jobs → workers'.Starts jobs' →
        ((∃ names, (unitsWithJobs workers jobs [root]).result = .error (.fieldBindings names)) ↔
          ∃ names,
            (unitsWithJobs workers' jobs' root.children).result = .error (.fieldBindings names))) ∧
      ∀ whole parts,
        (unitsWithJobs workers jobs [root]).result = .ok whole →
        (unitsWithJobs workers' jobs' root.children).result = .ok parts →
        (∀ p ∈ root.ownedDecls none, ∀ q ∈ root.ownedDecls none,
          root.holdsAt Node.isEnum p = true → root.holdsAt Node.isEnum q = false →
            root.nameAt p ≠ root.nameAt q) →
        ∀ name, (∃ p, root.holdsAt Node.isDecl p = true ∧
            (root.owner? p).map root.fullName = name) →
          ∃ one other, (merge whole).get? name = some one ∧ (merge parts).get? name = some other ∧
            Listing.space one = Listing.space other ∧
            ∀ settings, ∃ one' other', (Pass.pipeline settings one).result = .ok one' ∧
              (Pass.pipeline settings other).result = .ok other' ∧
              Listing.space one' = Listing.space other' := by
  rw [← isSpace_eq_false_iff] at hspace
  have hroot : [root].flatMap Node.scopes = root.scopes := List.flatMap_singleton _ _
  constructor
  · intro hstarts hstarts'
    rw [exists_fieldBindings_unitsWithJobs_iff hstarts,
      exists_fieldBindings_unitsWithJobs_iff hstarts', hroot]
    simp only [Node.mem_declsNamed_scopes_iff hspace hdecl]
  · rintro whole parts hwhole hparts hnames name ⟨p, hp, rfl⟩
    rw [unitsWithJobs_eq_ok_iff, hroot] at hwhole
    rw [unitsWithJobs_eq_ok_iff] at hparts
    obtain ⟨-, -, rfl⟩ := hwhole
    obtain ⟨-, -, rfl⟩ := hparts
    -- The declaration at `p` shows that both ways there is a namespace of this name.
    obtain ⟨node, hnode⟩ := Node.exists_mem_declsNamed_owner? hp
    have hnode' := (Node.mem_declsNamed_scopes_iff hspace hdecl).1 hnode
    have halike := alike_units_children hspace hdecl hnames ((root.owner? p).map root.fullName)
    rw [← typesNamed_map_spaceOf, ← typesNamed_map_spaceOf] at halike
    have htype := List.mem_map_of_mem (f := typeOf) hnode
    have htype' := List.mem_map_of_mem (f := typeOf) hnode'
    rw [← typesNamed_map_spaceOf] at htype htype'
    refine ⟨_, _, get?_merge_of_mem htype, get?_merge_of_mem htype', halike.listing_eq, ?_⟩
    intro settings
    refine ⟨_, _, Pass.result_pipeline settings _, Pass.result_pipeline settings _, ?_⟩
    exact (halike.mapClasses _).listing_eq

/-- A tree with an enumeration in front of a class, a class that is declared twice, and a namespace
that is opened inside of the class and once more. -/
def mixedUnit : Node :=
  { kind := .compilationUnit, children := [
      { kind := .enumDecl, name := "E" },
      { kind := .classDecl, name := "K", children := [
          { kind := .namespaceDecl, name := "N", children := [
              { kind := .classDecl, name := "C" }] }] },
      { kind := .namespaceDecl, name := "N", children := [
          { kind := .enumDecl, name := "F" },
          { kind := .classDecl, name := "C" }] },
      { kind := .interfaceDecl, name := "K" }] }

/-- The fragments of `mixedUnit` as a whole. -/
def mixedWhole : List Namespace :=
  [{ name := none,
     types := [.ofClass { name := "K" }, .ofClass { name := "K" }, .ofEnum { name := "E" }] },
    { name := some "N", types := [.ofClass { name := "C" }] },
    { name := some "N", types := [.ofClass { name := "C" }, .ofEnum { name := "F" }] }]

/-- The fragments of the children of `mixedUnit`. -/
def mixedParts : List Namespace :=
  [{ name := none, types := [.ofEnum { name := "E" }] },
    { name := none, types := [.ofClass { name := "K" }] },
    { name := some "N", types := [.ofClass { name := "C" }] },
    { name := some "N", types := [.ofClass { name := "C" }, .ofEnum { name := "F" }] },
    { name := none, types := [.ofClass { name := "K" }] }]

theorem listing_units_children_mixedUnit :
    ((∃ names, (unitsWithJobs .alone 1 [mixedUnit]).result = .error (.fieldBindings names)) ↔
        ∃ names,
          (unitsWithJobs .alone 4 mixedUnit.children).result = .error (.fieldBindings names)) ∧
      (unitsWithJobs .alone 1 [mixedUnit]).result = .ok mixedWhole ∧
      (unitsWithJobs .alone 4 mixedUnit.children).result = .ok mixedParts ∧
      ∃ one other, (merge mixedWhole).get? none = some one ∧
        (merge mixedParts).get? none = some other ∧
        one.types.map TypeDecl.name = ["K", "E"] ∧ other.types.map TypeDecl.name = ["E", "K"] ∧
        Listing.space one = Listing.space other ∧
        ∀ settings, ∃ one' other', (Pass.pipeline settings one).result = .ok one' ∧
          (Pass.pipeline settings other).result = .ok other' ∧
          Listing.space one' = Listing.space other' := by
  obtain ⟨hfails, hlistings⟩ :=
    listing_units_children mixedUnit (by decide) (by decide) .alone .alone 1 4
  obtain ⟨one, other, hone, hother, hlisting⟩ :=
    hlistings mixedWhole mixedParts (by rfl) (by rfl) (by decide) none ⟨[0], by decide, by decide⟩
  refine ⟨hfails rfl rfl, by rfl, by rfl, one, other, hone, hother, ?_, ?_, hlisting⟩
  · cases hone
    rfl
  · cases hother
    rfl

end Build

end Recast
