import Recast.Proofs.Settled

/-!
# The order of passes

Two passes that are run one after the other may see each other's work. A pass that removes
something sees nothing of any other pass, and no other pass sees anything of it, not even the one
that may refuse a namespace (`Pass.result_run_run_comm`). So the removing passes can stand anywhere
in a run (`Pass.result_runAll_of_perm`): it is the order of the others that decides the result.

The two lowering passes both add methods at the end of a class. Run in the other order they add the
same methods in another order. `Pass.onClassAll_of_perm` says this of any passes in any two orders:
what they make of a class is the same up to the order of its methods.

The last pass looks at each class as the passes before it have left it, and these leave the indexers
of a class, or its properties, or take away all of them (`Pass.hasAccessorMembers_onClassAll`). So a
run in which it does not come last fails on the first class that has members which are lowered
later (`Pass.result_runAll_rename`).
-/

set_option autoImplicit false

namespace Recast

/-! ## The same up to the order of methods -/

/-- Two classes that differ at most in the order of their methods. -/
structure ClassDecl.SameButMethodOrder (one other : ClassDecl) : Prop where
  rest_eq : { one with methods := other.methods } = other
  methods_perm : one.methods.Perm other.methods

/-- Two types that differ at most in the order of their methods. -/
inductive TypeDecl.SameButMethodOrder : TypeDecl → TypeDecl → Prop
  | ofClass {one other : ClassDecl} :
      one.SameButMethodOrder other → SameButMethodOrder (.ofClass one) (.ofClass other)
  | ofEnum (decl : EnumDecl) : SameButMethodOrder (.ofEnum decl) (.ofEnum decl)

/-- Two namespaces that differ at most in the order of the methods of each class. -/
structure Namespace.SameButMethodOrder (one other : Namespace) : Prop where
  name_eq : one.name = other.name
  types : List.Forall₂ TypeDecl.SameButMethodOrder one.types other.types

namespace ClassDecl.SameButMethodOrder

theorem refl (decl : ClassDecl) : decl.SameButMethodOrder decl :=
  ⟨rfl, .refl _⟩

theorem trans {first next last : ClassDecl} (h : first.SameButMethodOrder next)
    (hnext : next.SameButMethodOrder last) : first.SameButMethodOrder last := by
  refine ⟨?_, h.methods_perm.trans hnext.methods_perm⟩
  rw [← hnext.rest_eq, ← h.rest_eq]

/-- A pass does not look at the methods of a class and adds the same ones at the end. -/
theorem onClass {one other : ClassDecl} (h : one.SameButMethodOrder other) (pass : Pass) :
    (pass.onClass one).SameButMethodOrder (pass.onClass other) := by
  obtain ⟨hrest, hmethods⟩ := h
  rw [← hrest]
  cases pass with
  | removeGenerated label => exact ⟨rfl, hmethods⟩
  | removeLicensed marker => exact ⟨rfl, hmethods⟩
  | lowerIndexers => exact ⟨rfl, hmethods.append_right _⟩
  | lowerProperties => exact ⟨rfl, hmethods.append_right _⟩
  | rename => exact ⟨rfl, hmethods⟩

theorem onClassAll {one other : ClassDecl} (h : one.SameButMethodOrder other)
    (passes : List Pass) :
    (Pass.onClassAll passes one).SameButMethodOrder (Pass.onClassAll passes other) := by
  induction passes generalizing one other with
  | nil => exact h
  | cons pass passes ih => exact ih (h.onClass pass)

end ClassDecl.SameButMethodOrder

theorem Namespace.sameButMethodOrder_mapClasses {f g : ClassDecl → ClassDecl}
    (h : ∀ decl, (f decl).SameButMethodOrder (g decl)) (space : Namespace) :
    (space.mapClasses f).SameButMethodOrder (space.mapClasses g) := by
  refine ⟨rfl, ?_⟩
  rw [mapClasses, mapClasses, List.forall₂_map_left_iff, List.forall₂_map_right_iff,
    List.forall₂_same]
  intro type _
  cases type with
  | ofClass decl => exact .ofClass (h decl)
  | ofEnum decl => exact .ofEnum decl

namespace Pass

/-! ## Removing passes stand anywhere -/

/-- Whether a pass removes fields or constructors. -/
def isRemoval : Pass → Bool
  | .removeGenerated _ => true
  | .removeLicensed _ => true
  | _ => false

/-- The passes of a run that remove nothing, in their order. -/
def deciding (passes : List Pass) : List Pass :=
  passes.filter fun pass => !pass.isRemoval

theorem ne_rename_of_isRemoval {pass : Pass} (h : pass.isRemoval = true) : pass ≠ .rename := by
  rintro rfl
  cases h

/-- A removing pass commutes with every pass on a class. -/
theorem onClass_comm {pass : Pass} (h : pass.isRemoval = true) (other : Pass) (decl : ClassDecl) :
    other.onClass (pass.onClass decl) = pass.onClass (other.onClass decl) := by
  cases pass with
  | removeGenerated label =>
    cases other with
    | removeGenerated otherLabel =>
      -- Both filter the same list.
      simp only [onClass, List.filter_filter, Bool.and_comm]
    | removeLicensed marker => rfl
    | lowerIndexers => rfl
    | lowerProperties => rfl
    | rename => rfl
  | removeLicensed marker =>
    cases other with
    | removeGenerated label => rfl
    | removeLicensed otherMarker => simp only [onClass, List.filter_filter, Bool.and_comm]
    | lowerIndexers => rfl
    | lowerProperties => rfl
    | rename => rfl
  | lowerIndexers => cases h
  | lowerProperties => cases h
  | rename => cases h

/-- A removing pass leaves properties and indexers as they are. -/
theorem members_onClass {pass : Pass} (h : pass.isRemoval = true) (decl : ClassDecl) :
    (pass.onClass decl).properties = decl.properties ∧
      (pass.onClass decl).indexers = decl.indexers := by
  cases pass with
  | removeGenerated label => exact ⟨rfl, rfl⟩
  | removeLicensed marker => exact ⟨rfl, rfl⟩
  | lowerIndexers => cases h
  | lowerProperties => cases h
  | rename => cases h

theorem name_onClass (pass : Pass) (decl : ClassDecl) : (pass.onClass decl).name = decl.name := by
  cases pass <;> rfl

/-- A removing pass neither makes another pass refuse a namespace nor keeps it from doing so. -/
theorem fault?_mapClasses_onClass {pass : Pass} (h : pass.isRemoval = true) (other : Pass)
    (space : Namespace) : other.fault? (space.mapClasses pass.onClass) = other.fault? space := by
  by_cases hother : other = .rename
  · subst hother
    have hmembers : ClassDecl.hasAccessorMembers ∘ pass.onClass
        = ClassDecl.hasAccessorMembers := by
      funext decl
      rw [Function.comp_apply, ClassDecl.hasAccessorMembers, (members_onClass h decl).1,
        (members_onClass h decl).2, ← ClassDecl.hasAccessorMembers]
    rw [fault?, fault?, Namespace.classes_mapClasses, List.find?_map, Option.map_map, hmembers]
    simp only [Function.comp_def, name_onClass]
  · rw [fault?_eq_none_of_ne_rename hother, fault?_eq_none_of_ne_rename hother]

/-- A removing pass commutes with every pass on a namespace, also with one that fails. -/
theorem result_run_run_comm {pass : Pass} (h : pass.isRemoval = true) (other : Pass)
    (space : Namespace) :
    ((pass.run space).result >>= fun next => (other.run next).result)
      = (other.run space).result >>= fun next => (pass.run next).result := by
  have hpass : ∀ next : Namespace, (pass.run next).result = .ok (next.mapClasses pass.onClass) :=
    fun next => result_run_of_fault? (fault?_eq_none_of_ne_rename (ne_rename_of_isRemoval h) next)
  have hfault := fault?_mapClasses_onClass h other space
  rw [hpass]
  simp only [hpass]
  change (other.run (space.mapClasses pass.onClass)).result = _
  cases hother : other.fault? space with
  | none =>
    rw [result_run_of_fault? hother, result_run_of_fault? (hfault.trans hother),
      Namespace.mapClasses_mapClasses]
    have hcomm : other.onClass ∘ pass.onClass = pass.onClass ∘ other.onClass :=
      funext (onClass_comm h other)
    rw [hcomm, ← Namespace.mapClasses_mapClasses]
    rfl
  | some fault =>
    rw [run, run, hfault, hother]
    rfl

/-- What two runs make of every namespace is the same with a pass in front of both. -/
theorem result_runAll_cons_congr {passes others : List Pass}
    (h : ∀ space, (runAll passes space).result = (runAll others space).result) (pass : Pass)
    (space : Namespace) :
    (runAll (pass :: passes) space).result = (runAll (pass :: others) space).result := by
  rw [result_runAll_cons, result_runAll_cons]
  simp only [h]

/-- Any pass can go in front of removing passes. -/
theorem result_runAll_behind {removals : List Pass}
    (h : ∀ pass ∈ removals, pass.isRemoval = true) (other : Pass) (passes : List Pass)
    (space : Namespace) :
    (runAll (removals ++ other :: passes) space).result
      = (runAll (other :: (removals ++ passes)) space).result := by
  induction removals generalizing space with
  | nil => rfl
  | cons pass removals ih =>
    obtain ⟨hpass, hremovals⟩ := List.forall_mem_cons.1 h
    calc (runAll (pass :: (removals ++ other :: passes)) space).result
        = (runAll (pass :: other :: (removals ++ passes)) space).result :=
          result_runAll_cons_congr (ih hremovals) pass space
      _ = ((pass.run space).result >>= fun next => (other.run next).result)
            >>= fun last => (runAll (removals ++ passes) last).result := by
          rw [result_runAll_cons, bind_assoc]
          simp only [result_runAll_cons]
      _ = ((other.run space).result >>= fun next => (pass.run next).result)
            >>= fun last => (runAll (removals ++ passes) last).result := by
          rw [result_run_run_comm hpass]
      _ = (runAll (other :: pass :: (removals ++ passes)) space).result := by
          rw [result_runAll_cons, bind_assoc]
          simp only [result_runAll_cons]

/-- The removing passes of a run can be run first. -/
theorem result_runAll_removals_first (passes : List Pass) (space : Namespace) :
    (runAll passes space).result
      = (runAll (passes.filter isRemoval ++ deciding passes) space).result := by
  induction passes generalizing space with
  | nil => rfl
  | cons pass passes ih =>
    rw [result_runAll_cons_congr ih pass space]
    cases hpass : pass.isRemoval with
    | true =>
      have hdeciding : deciding (pass :: passes) = deciding passes :=
        List.filter_cons_of_neg (by simp [hpass])
      rw [List.filter_cons_of_pos hpass, hdeciding]
      rfl
    | false =>
      have hremovals : ∀ other ∈ passes.filter isRemoval, other.isRemoval = true :=
        fun other hother => (List.mem_filter.1 hother).2
      have hdeciding : deciding (pass :: passes) = pass :: deciding passes :=
        List.filter_cons_of_pos (by simp [hpass])
      rw [List.filter_cons_of_neg (by simp [hpass]), hdeciding, result_runAll_behind hremovals]

/-- Runs of the same passes have the same result if the passes that remove nothing come in the same
order. -/
theorem result_runAll_of_perm {passes others : List Pass} (h : passes.Perm others)
    (horder : deciding passes = deciding others) (space : Namespace) :
    (runAll passes space).result = (runAll others space).result := by
  have hremovals : ∀ run : List Pass, ∀ pass ∈ run.filter isRemoval, pass.isRemoval = true :=
    fun run pass hpass => (List.mem_filter.1 hpass).2
  have hfirst : onClassAll (passes.filter isRemoval) = onClassAll (others.filter isRemoval) := by
    funext decl
    apply (h.filter isRemoval).foldl_eq'
    intro pass hpass other _ before
    exact onClass_comm (hremovals passes pass hpass) other before
  have hnever : ∀ run : List Pass, ∀ pass ∈ run.filter isRemoval, pass ≠ .rename :=
    fun run pass hpass => ne_rename_of_isRemoval (hremovals run pass hpass)
  rw [result_runAll_removals_first passes, result_runAll_removals_first others,
    result_runAll_append, result_runAll_append, result_runAll_of_forall_ne_rename (hnever passes),
    result_runAll_of_forall_ne_rename (hnever others), hfirst, horder]

/-! ## Any order -/

theorem eq_of_isRemoval_eq_false {pass : Pass} (h : pass.isRemoval = false) :
    pass = .lowerIndexers ∨ pass = .lowerProperties ∨ pass = .rename := by
  cases pass with
  | removeGenerated label => cases h
  | removeLicensed marker => cases h
  | lowerIndexers => exact .inl rfl
  | lowerProperties => exact .inr (.inl rfl)
  | rename => exact .inr (.inr rfl)

/-- Two passes in either order make the same of a class up to the order of its methods. -/
theorem sameButMethodOrder_swap (first next : Pass) (decl : ClassDecl) :
    (next.onClass (first.onClass decl)).SameButMethodOrder
      (first.onClass (next.onClass decl)) := by
  cases hfirst : first.isRemoval with
  | true =>
    rw [onClass_comm hfirst]
    exact .refl _
  | false =>
    cases hnext : next.isRemoval with
    | true =>
      rw [onClass_comm hnext]
      exact .refl _
    | false =>
      have hmethods : ∀ methods some others : List Routine,
          (methods ++ some ++ others).Perm (methods ++ others ++ some) := by
        intro methods some others
        rw [List.append_assoc, List.append_assoc]
        exact List.perm_append_comm.append_left methods
      -- Only the two lowering passes see each other: each adds its methods behind the other's.
      rcases eq_of_isRemoval_eq_false hfirst with rfl | rfl | rfl
      · rcases eq_of_isRemoval_eq_false hnext with rfl | rfl | rfl
        · exact .refl _
        · exact ⟨rfl, hmethods _ _ _⟩
        · exact .refl _
      · rcases eq_of_isRemoval_eq_false hnext with rfl | rfl | rfl
        · exact ⟨rfl, hmethods _ _ _⟩
        · exact .refl _
        · exact .refl _
      · exact .refl _

/-- The same passes in any two orders make the same of a class up to the order of its methods. -/
theorem onClassAll_of_perm {passes others : List Pass} (h : passes.Perm others)
    (decl : ClassDecl) :
    (onClassAll passes decl).SameButMethodOrder (onClassAll others decl) := by
  induction h generalizing decl with
  | nil => exact .refl _
  | cons pass _ ih => exact ih (pass.onClass decl)
  | swap first next passes => exact (sameButMethodOrder_swap next first decl).onClassAll passes
  | trans _ _ ihfirst ihnext => exact (ihfirst decl).trans (ihnext decl)

/-! ## What the last pass sees -/

/-- A class has members of a kind that none of some passes lowers. -/
def LeavesAccessors (passes : List Pass) (decl : ClassDecl) : Prop :=
  .lowerIndexers ∉ passes ∧ decl.indexers ≠ [] ∨ .lowerProperties ∉ passes ∧ decl.properties ≠ []

instance (passes : List Pass) : DecidablePred (LeavesAccessors passes) :=
  fun _ => inferInstanceAs (Decidable (_ ∨ _))

theorem onClassAll_append (first next : List Pass) (decl : ClassDecl) :
    onClassAll (first ++ next) decl = onClassAll next (onClassAll first decl) :=
  List.foldl_append

theorem indexers_onClassAll (passes : List Pass) (decl : ClassDecl) :
    (onClassAll passes decl).indexers
      = if .lowerIndexers ∈ passes then [] else decl.indexers := by
  induction passes generalizing decl with
  | nil => rfl
  | cons pass passes ih =>
    refine (ih (pass.onClass decl)).trans ?_
    cases pass <;> simp [onClass]

theorem properties_onClassAll (passes : List Pass) (decl : ClassDecl) :
    (onClassAll passes decl).properties
      = if .lowerProperties ∈ passes then [] else decl.properties := by
  induction passes generalizing decl with
  | nil => rfl
  | cons pass passes ih =>
    refine (ih (pass.onClass decl)).trans ?_
    cases pass <;> simp [onClass]

theorem name_onClassAll (passes : List Pass) (decl : ClassDecl) :
    (onClassAll passes decl).name = decl.name := by
  induction passes generalizing decl with
  | nil => rfl
  | cons pass passes ih => exact (ih (pass.onClass decl)).trans (name_onClass pass decl)

/-- A class has accessors behind some passes if it had members that none of them lowers. -/
theorem hasAccessorMembers_onClassAll (passes : List Pass) (decl : ClassDecl) :
    (onClassAll passes decl).hasAccessorMembers = decide (LeavesAccessors passes decl) := by
  rw [ClassDecl.hasAccessorMembers, indexers_onClassAll, properties_onClassAll, Bool.eq_iff_iff,
    decide_eq_true_iff, LeavesAccessors, Bool.or_eq_true, or_comm]
  by_cases hindexers : .lowerIndexers ∈ passes <;>
    by_cases hproperties : .lowerProperties ∈ passes <;> simp [hindexers, hproperties]

theorem fault?_rename_mapClasses (passes : List Pass) (space : Namespace) :
    Pass.rename.fault? (space.mapClasses (onClassAll passes))
      = (space.classes.find? (LeavesAccessors passes ·)).map fun decl =>
          { pass := "RenameTransform", owner := decl.name } := by
  have hmembers : ClassDecl.hasAccessorMembers ∘ onClassAll passes
      = fun decl => decide (LeavesAccessors passes decl) :=
    funext (hasAccessorMembers_onClassAll passes)
  rw [fault?, Namespace.classes_mapClasses, List.find?_map, Option.map_map, hmembers]
  simp only [Function.comp_def, name_onClassAll]
  rfl

/-- A run with one `rename` fails there on the first class that has members which are not lowered
before, and else it succeeds. -/
theorem result_runAll_rename {before after : List Pass} (hbefore : .rename ∉ before)
    (hafter : .rename ∉ after) (space : Namespace) :
    (runAll (before ++ .rename :: after) space).result
      = match space.classes.find? (LeavesAccessors before ·) with
        | some decl => .error { pass := "RenameTransform", owner := decl.name }
        | none => .ok (space.mapClasses (onClassAll (before ++ .rename :: after))) := by
  have hne : ∀ {passes : List Pass}, .rename ∉ passes → ∀ pass ∈ passes, pass ≠ .rename := by
    rintro passes h pass hpass rfl
    exact h hpass
  have hfault := fault?_rename_mapClasses before space
  rw [result_runAll_append, result_runAll_of_forall_ne_rename (hne hbefore)]
  refine (result_runAll_cons .rename after _).trans ?_
  cases hfind : space.classes.find? (LeavesAccessors before ·) with
  | some decl =>
    rw [hfind] at hfault
    rw [run, hfault]
    rfl
  | none =>
    rw [hfind] at hfault
    rw [result_run_of_fault? hfault]
    refine (result_runAll_of_forall_ne_rename (hne hafter) _).trans ?_
    rw [Namespace.mapClasses_mapClasses, Namespace.mapClasses_mapClasses]
    congr 2
    funext decl
    exact (onClassAll_append before (.rename :: after) decl).symm

/-! ## Orders of the usual passes -/

theorem nodup_standard (settings : Settings) : (standard settings).Nodup := by
  simp [standard]

/-- The three passes that decide a run of the usual passes come in the order in which they are found
in it. -/
theorem deciding_eq_of_sublist {settings : Settings} {passes order : List Pass}
    (h : passes.Perm (standard settings)) (horder : order.Perm (deciding (standard settings)))
    (hsub : order.Sublist passes) : deciding passes = order := by
  have hperm : (deciding passes).Perm (deciding (standard settings)) := h.filter _
  have hkept : (deciding order).Sublist (deciding passes) := hsub.filter _
  have hall : deciding order = order := by
    apply List.filter_eq_self.2
    intro pass hpass
    exact (List.mem_filter.1 (horder.subset hpass)).2
  rw [hall] at hkept
  exact (hkept.eq_of_length (horder.length_eq.trans hperm.length_eq.symm)).symm

/-- A run of the usual passes in any order, where `rename` comes between `before` and `after`. -/
theorem result_runAll_standard {settings : Settings} {before after : List Pass}
    (h : (before ++ .rename :: after).Perm (standard settings)) (space : Namespace) :
    (runAll (before ++ .rename :: after) space).result
      = match space.classes.find? (LeavesAccessors before ·) with
        | some decl => .error { pass := "RenameTransform", owner := decl.name }
        | none => .ok (space.mapClasses (onClassAll (before ++ .rename :: after))) := by
  have hnodup := h.nodup_iff.2 (nodup_standard settings)
  obtain ⟨-, hbehind, hdisjoint⟩ := List.nodup_append.1 hnodup
  have hbefore : .rename ∉ before := fun hmem => hdisjoint _ hmem _ List.mem_cons_self rfl
  exact result_runAll_rename hbefore (List.nodup_cons.1 hbehind).1 space

/-- The usual passes in any order yield the usual result up to the order of methods, if `rename`
finds everything lowered. -/
theorem exists_sameButMethodOrder {settings : Settings} {before after : List Pass}
    (h : (before ++ .rename :: after).Perm (standard settings)) {space : Namespace}
    (hnone : ∀ decl ∈ space.classes, ¬LeavesAccessors before decl) :
    ∃ usual last, (pipeline settings space).result = .ok usual ∧
      (runAll (before ++ .rename :: after) space).result = .ok last ∧
      last.SameButMethodOrder usual := by
  have hfind : space.classes.find? (LeavesAccessors before ·) = none := by
    apply List.find?_eq_none.2
    intro decl hdecl
    rw [decide_eq_true_iff]
    exact hnone decl hdecl
  have hresult := result_runAll_standard h space
  rw [hfind] at hresult
  refine ⟨_, _, result_pipeline settings space, hresult, ?_⟩
  apply Namespace.sameButMethodOrder_mapClasses
  intro decl
  -- The last of the usual passes changes nothing, so `lower` leaves it out.
  have hlower : onClassAll (standard settings) decl = lower settings decl := rfl
  rw [← hlower]
  exact onClassAll_of_perm h decl

/-- The usual passes in any order fail exactly if `rename` finds something that is not lowered. -/
theorem exists_error_iff {settings : Settings} {before after : List Pass}
    (h : (before ++ .rename :: after).Perm (standard settings)) (space : Namespace) :
    (∃ fault, (runAll (before ++ .rename :: after) space).result = .error fault) ↔
      ∃ decl ∈ space.classes, LeavesAccessors before decl := by
  have hresult := result_runAll_standard h space
  cases hfind : space.classes.find? (LeavesAccessors before ·) with
  | some decl =>
    rw [hfind] at hresult
    constructor
    · intro _
      have hleaves := List.find?_some hfind
      exact ⟨decl, List.mem_of_find?_eq_some hfind, of_decide_eq_true hleaves⟩
    · intro _
      exact ⟨_, hresult⟩
  | none =>
    rw [hfind] at hresult
    constructor
    · rintro ⟨fault, hfault⟩
      rw [hresult] at hfault
      cases hfault
    · rintro ⟨decl, hdecl, hleaves⟩
      exact absurd (decide_eq_true hleaves) (List.find?_eq_none.1 hfind decl hdecl)

/-- The usual passes but the last one, with the two lowering passes in the other order. -/
def propertiesFirst (settings : Settings) : List Pass :=
  [.removeGenerated settings.generatedAttribute, .removeLicensed settings.licenseMarker,
    .lowerProperties, .lowerIndexers]

theorem perm_propertiesFirst (settings : Settings) :
    (propertiesFirst settings ++ [Pass.rename]).Perm (standard settings) :=
  .cons _ (.cons _ (.swap _ _ _))

theorem not_leavesAccessors_propertiesFirst (settings : Settings) (decl : ClassDecl) :
    ¬LeavesAccessors (propertiesFirst settings) decl := by
  rintro (⟨hindexers, -⟩ | ⟨hproperties, -⟩)
  · exact hindexers (by simp [propertiesFirst])
  · exact hproperties (by simp [propertiesFirst])

end Pass

/-- The usual passes in any order. The removing passes can stand anywhere. If the indexers are
lowered before the properties and `rename` comes behind both, the result is the usual one; with
properties before indexers it is so up to the order of the methods of each class. In any order the
run fails exactly if some class has members that are not lowered before `rename`, with an error that
names the first such class, and else it yields the usual result up to the order of methods. -/
theorem runAll_orders (settings : Settings) (space : Namespace) (passes : List Pass)
    (h : passes.Perm (Pass.standard settings)) :
    (∀ others : List Pass, others.Perm (Pass.standard settings) →
        Pass.deciding others = Pass.deciding passes →
          (Pass.runAll others space).result = (Pass.runAll passes space).result) ∧
      ([.lowerIndexers, .lowerProperties, .rename].Sublist passes →
        ∃ usual, (Pass.pipeline settings space).result = .ok usual ∧
          (Pass.runAll passes space).result = .ok usual) ∧
      ([.lowerProperties, .lowerIndexers, .rename].Sublist passes →
        ∃ usual last, (Pass.pipeline settings space).result = .ok usual ∧
          (Pass.runAll passes space).result = .ok last ∧ last.SameButMethodOrder usual) ∧
      ∀ before after : List Pass, passes = before ++ .rename :: after →
        ((∃ fault, (Pass.runAll passes space).result = .error fault) ↔
            ∃ decl ∈ space.classes, Pass.LeavesAccessors before decl) ∧
          (∀ front decl back, space.classes = front ++ decl :: back →
            Pass.LeavesAccessors before decl →
            (∀ earlier ∈ front, ¬Pass.LeavesAccessors before earlier) →
              (Pass.runAll passes space).result
                = .error { pass := "RenameTransform", owner := decl.name }) ∧
          ((∀ decl ∈ space.classes, ¬Pass.LeavesAccessors before decl) →
            ∃ usual last, (Pass.pipeline settings space).result = .ok usual ∧
              (Pass.runAll passes space).result = .ok last ∧ last.SameButMethodOrder usual) := by
  refine ⟨?_, ?_, ?_, ?_⟩
  · intro others hothers horder
    exact Pass.result_runAll_of_perm (hothers.trans h.symm) horder space
  · intro hsub
    refine ⟨_, Pass.result_pipeline settings space, ?_⟩
    have horder := Pass.deciding_eq_of_sublist h (.refl _) hsub
    exact (Pass.result_runAll_of_perm h horder space).trans (Pass.result_pipeline settings space)
  · intro hsub
    -- With the removing passes in front, `rename` has both lowering passes before it.
    have hperm := Pass.perm_propertiesFirst settings
    have horder := Pass.deciding_eq_of_sublist h (.swap _ _ _) hsub
    have hresult := Pass.result_runAll_of_perm (h.trans hperm.symm) horder space
    rw [hresult]
    apply Pass.exists_sameButMethodOrder hperm
    intro decl _
    exact Pass.not_leavesAccessors_propertiesFirst settings decl
  · rintro before after rfl
    refine ⟨Pass.exists_error_iff h space, ?_, Pass.exists_sameButMethodOrder h⟩
    intro front decl back hclasses hleaves hearlier
    have hfind : space.classes.find? (Pass.LeavesAccessors before ·) = some decl := by
      apply List.find?_eq_some_iff_append.2
      refine ⟨decide_eq_true hleaves, front, back, hclasses, ?_⟩
      intro earlier hmem
      rw [Bool.not_eq_true', decide_eq_false_iff_not]
      exact hearlier earlier hmem
    rw [Pass.result_runAll_standard h space, hfind]

/-- The usual passes with the removing passes between the others. -/
def scatteredPasses : List Pass :=
  [.lowerIndexers, .removeLicensed "LicenseManager", .lowerProperties,
    .removeGenerated "CompilerGenerated", .rename]

/-- The usual passes with the lowering passes in the other order. -/
def swappedPasses : List Pass :=
  [.lowerProperties, .removeGenerated "CompilerGenerated", .lowerIndexers, .rename,
    .removeLicensed "LicenseManager"]

/-- The usual passes with `rename` between the lowering passes. -/
def hastyPasses : List Pass :=
  [.lowerIndexers, .removeGenerated "CompilerGenerated", .rename, .lowerProperties,
    .removeLicensed "LicenseManager"]

theorem runAll_orders_unsettledSpace :
    (Pass.runAll scatteredPasses unsettledSpace).result = .ok settledSpace ∧
      (∃ last, (Pass.runAll swappedPasses unsettledSpace).result = .ok last ∧
        last.SameButMethodOrder settledSpace) ∧
      (Pass.runAll hastyPasses unsettledSpace).result
        = .error { pass := "RenameTransform", owner := "Account" } ∧
      ∃ last, (Pass.runAll hastyPasses settledSpace).result = .ok last := by
  have husual : (Pass.pipeline {} unsettledSpace).result = .ok settledSpace := by decide +kernel
  obtain ⟨-, hscattered, -, -⟩ :=
    runAll_orders {} unsettledSpace scatteredPasses (by decide)
  obtain ⟨-, -, hswapped, -⟩ := runAll_orders {} unsettledSpace swappedPasses (by decide)
  obtain ⟨-, -, -, hhasty⟩ := runAll_orders {} unsettledSpace hastyPasses (by decide)
  obtain ⟨-, -, -, hidle⟩ := runAll_orders {} settledSpace hastyPasses (by decide)
  obtain ⟨usual, hpipeline, hlast⟩ := hscattered (by decide)
  obtain ⟨other, last, hother, hrun, hsame⟩ := hswapped (by decide)
  obtain rfl : usual = settledSpace := Except.ok.inj (hpipeline.symm.trans husual)
  obtain rfl : other = settledSpace := Except.ok.inj (hother.symm.trans husual)
  refine ⟨hlast, ⟨last, hrun, hsame⟩, ?_, ?_⟩
  · obtain ⟨-, hfirst, -⟩ := hhasty [.lowerIndexers, .removeGenerated "CompilerGenerated"]
      [.lowerProperties, .removeLicensed "LicenseManager"] rfl
    exact hfirst [] _ [] rfl (by decide) (by simp)
  · obtain ⟨-, -, hsucceeds⟩ := hidle [.lowerIndexers, .removeGenerated "CompilerGenerated"]
      [.lowerProperties, .removeLicensed "LicenseManager"] rfl
    obtain ⟨-, last, -, hlast, -⟩ := hsucceeds (by decide)
    exact ⟨last, hlast⟩

end Recast
