import Recast.Proofs.Pipeline

/-!
# Running passes again

A pass has done its work on a class when the class holds nothing that the pass would take away,
lower or refuse. `Pass.Settled` says this of each pass without running it. A pass settles every
class of a namespace on which it succeeds (`Pass.settledIn_of_run`), and no later pass undoes that:
passes take away fields, constructors, properties and indexers and never add one
(`Pass.shrinks_onClass`). The methods that lowering adds are looked at by no pass.

On a settled namespace a pass changes nothing and reports nothing (`Pass.run_of_settledIn`). So any
passes, in any order, that succeed on a namespace do nothing when they are run again
(`Pass.runAll_of_runAll`), and the usual passes succeed on every namespace (`pipeline_settles`).
-/

set_option autoImplicit false

namespace Recast

/-- A class whose fields, constructors, properties and indexers are among those of another one. -/
structure ClassDecl.Shrinks (after before : ClassDecl) : Prop where
  fields : after.fields.Sublist before.fields
  constructors : after.constructors.Sublist before.constructors
  properties : after.properties.Sublist before.properties
  indexers : after.indexers.Sublist before.indexers

theorem Namespace.mapClasses_eq_self {f : ClassDecl → ClassDecl} {space : Namespace}
    (h : ∀ decl ∈ space.classes, f decl = decl) : space.mapClasses f = space := by
  have htypes : space.types.map (TypeDecl.mapClass f) = space.types := by
    refine (List.map_congr_left fun type htype => ?_).trans (List.map_id _)
    cases type with
    | ofClass decl =>
      have hdecl : decl ∈ space.classes := List.mem_filterMap.2 ⟨_, htype, rfl⟩
      exact congrArg TypeDecl.ofClass (h decl hdecl)
    | ofEnum decl => rfl
  rw [mapClasses, htypes]

namespace Pass

/-! ## Settled classes -/

/-- A class in which a pass finds nothing to do. -/
def Settled : Pass → ClassDecl → Prop
  | .removeGenerated label, decl => ∀ field ∈ decl.fields, ¬NamesAttribute label field
  | .removeLicensed marker, decl => ∀ routine ∈ decl.constructors, ¬HoldsMarker marker routine
  | .lowerIndexers, decl => decl.indexers = []
  | .lowerProperties, decl => decl.properties = []
  | .rename, decl => decl.properties = [] ∧ decl.indexers = []

theorem hasAccessorMembers_eq_false_iff {decl : ClassDecl} :
    decl.hasAccessorMembers = false ↔ Pass.rename.Settled decl := by
  rw [ClassDecl.hasAccessorMembers, Bool.or_eq_false_iff, Bool.not_eq_false', Bool.not_eq_false',
    List.isEmpty_iff, List.isEmpty_iff]
  rfl

/-- No pass adds a field, a constructor, a property or an indexer. -/
theorem shrinks_onClass (pass : Pass) (decl : ClassDecl) : (pass.onClass decl).Shrinks decl := by
  cases pass with
  | removeGenerated label => exact ⟨List.filter_sublist, .refl _, .refl _, .refl _⟩
  | removeLicensed marker => exact ⟨.refl _, List.filter_sublist, .refl _, .refl _⟩
  | lowerIndexers => exact ⟨.refl _, .refl _, .refl _, List.nil_sublist _⟩
  | lowerProperties => exact ⟨.refl _, .refl _, List.nil_sublist _, .refl _⟩
  | rename => exact ⟨.refl _, .refl _, .refl _, .refl _⟩

/-- What is settled stays so when members go. -/
theorem Settled.of_shrinks {pass : Pass} {before after : ClassDecl} (h : pass.Settled before)
    (hshrinks : after.Shrinks before) : pass.Settled after := by
  -- An empty list has no other sublist than itself.
  have hnil : ∀ {α : Type} {l m : List α}, m = [] → l.Sublist m → l = [] := by
    intro α l m hm hl
    rw [hm] at hl
    exact List.sublist_nil.1 hl
  cases pass with
  | removeGenerated label =>
    intro field hfield
    exact h field (hshrinks.fields.mem hfield)
  | removeLicensed marker =>
    intro routine hroutine
    exact h routine (hshrinks.constructors.mem hroutine)
  | lowerIndexers => exact hnil h hshrinks.indexers
  | lowerProperties => exact hnil h hshrinks.properties
  | rename =>
    obtain ⟨hproperties, hindexers⟩ := h
    exact ⟨hnil hproperties hshrinks.properties, hnil hindexers hshrinks.indexers⟩

/-- A pass settles a class; the last pass does nothing, so for it the class has to be settled
before. -/
theorem settled_onClass {pass : Pass} {decl : ClassDecl}
    (h : pass = .rename → pass.Settled decl) : pass.Settled (pass.onClass decl) := by
  cases pass with
  | removeGenerated label =>
    intro field hfield
    obtain ⟨-, hkept⟩ := List.mem_filter.1 hfield
    rw [isGenerated_eq] at hkept
    simpa using hkept
  | removeLicensed marker =>
    intro routine hroutine
    obtain ⟨-, hkept⟩ := List.mem_filter.1 hroutine
    rw [isLicensed_eq] at hkept
    simpa using hkept
  | lowerIndexers => rfl
  | lowerProperties => rfl
  | rename => exact h rfl

/-- A pass leaves a settled class as it is. -/
theorem onClass_of_settled {pass : Pass} {decl : ClassDecl} (h : pass.Settled decl) :
    pass.onClass decl = decl := by
  obtain ⟨name, bases, fields, properties, constructors, methods, indexers⟩ := decl
  cases pass with
  | removeGenerated label =>
    have hall : fields.filter (fun field => !isGenerated label field) = fields := by
      apply List.filter_eq_self.2
      intro field hfield
      rw [isGenerated_eq, Bool.not_eq_true', decide_eq_false_iff_not]
      exact h field hfield
    rw [onClass, hall]
  | removeLicensed marker =>
    have hall : constructors.filter (fun routine => !isLicensed marker routine)
        = constructors := by
      apply List.filter_eq_self.2
      intro routine hroutine
      rw [isLicensed_eq, Bool.not_eq_true', decide_eq_false_iff_not]
      exact h routine hroutine
    rw [onClass, hall]
  | lowerIndexers =>
    obtain rfl : indexers = [] := h
    rw [onClass, List.flatMap_nil, List.append_nil]
  | lowerProperties =>
    obtain rfl : properties = [] := h
    rw [onClass, List.flatMap_nil, List.append_nil]
  | rename => rfl

/-- A pass reports nothing of a settled class. -/
theorem classEvents_of_settled {pass : Pass} {decl : ClassDecl} (h : pass.Settled decl) :
    pass.classEvents decl = [] := by
  have hnone : ∀ (event : Nat → Event) {count : Nat}, count = 0 → counted event count = [] :=
    fun _ _ hcount => if_pos hcount
  cases pass with
  | removeGenerated label =>
    apply hnone
    apply List.countP_eq_zero.2
    intro field hfield
    rw [isGenerated_eq, decide_eq_true_iff]
    exact h field hfield
  | removeLicensed marker =>
    apply hnone
    apply List.countP_eq_zero.2
    intro routine hroutine
    rw [isLicensed_eq, decide_eq_true_iff]
    exact h routine hroutine
  | lowerIndexers => exact hnone _ (List.length_eq_zero_iff.2 h)
  | lowerProperties => exact hnone _ (List.length_eq_zero_iff.2 h)
  | rename => rfl

/-! ## Settled namespaces -/

/-- A namespace in which a pass finds nothing to do. -/
def SettledIn (pass : Pass) (space : Namespace) : Prop :=
  ∀ decl ∈ space.classes, pass.Settled decl

/-- A pass succeeds unless it has a fault, and then it changes every class. -/
theorem run_eq_ok_iff {pass : Pass} {space next : Namespace} :
    (pass.run space).result = .ok next ↔
      pass.fault? space = none ∧ next = space.mapClasses pass.onClass := by
  cases hfault : pass.fault? space with
  | none =>
    rw [result_run_of_fault? hfault, Except.ok.injEq, eq_comm]
    simp
  | some fault =>
    rw [run, hfault]
    simp

theorem fault?_of_settledIn {pass : Pass} {space : Namespace} (h : pass.SettledIn space) :
    pass.fault? space = none := by
  by_cases hrename : pass = .rename
  · subst hrename
    apply fault?_rename_eq_none_iff.2
    intro decl hdecl
    exact hasAccessorMembers_eq_false_iff.2 (h decl hdecl)
  · exact fault?_eq_none_of_ne_rename hrename space

/-- A pass that succeeds has settled the namespace. -/
theorem settledIn_of_run {pass : Pass} {space next : Namespace}
    (h : (pass.run space).result = .ok next) : pass.SettledIn next := by
  obtain ⟨hfault, rfl⟩ := run_eq_ok_iff.1 h
  intro decl hdecl
  rw [Namespace.classes_mapClasses] at hdecl
  obtain ⟨before, hbefore, rfl⟩ := List.mem_map.1 hdecl
  apply settled_onClass
  rintro rfl
  exact hasAccessorMembers_eq_false_iff.1 (fault?_rename_eq_none_iff.1 hfault before hbefore)

/-- A pass does not undo what another one has settled. -/
theorem SettledIn.of_run {other pass : Pass} {space next : Namespace} (h : other.SettledIn space)
    (hrun : (pass.run space).result = .ok next) : other.SettledIn next := by
  obtain ⟨-, rfl⟩ := run_eq_ok_iff.1 hrun
  intro decl hdecl
  rw [Namespace.classes_mapClasses] at hdecl
  obtain ⟨before, hbefore, rfl⟩ := List.mem_map.1 hdecl
  exact (h before hbefore).of_shrinks (shrinks_onClass pass before)

/-- On a settled namespace a pass changes nothing and reports nothing. -/
theorem run_of_settledIn {pass : Pass} {space : Namespace} (h : pass.SettledIn space) :
    pass.run space = pure space := by
  have hevents : space.classes.flatMap pass.classEvents = [] := by
    apply List.flatMap_eq_nil_iff.2
    intro decl hdecl
    exact classEvents_of_settled (h decl hdecl)
  have hclasses : space.mapClasses pass.onClass = space := by
    apply Namespace.mapClasses_eq_self
    intro decl hdecl
    exact onClass_of_settled (h decl hdecl)
  rw [run, fault?_of_settledIn h, hevents, hclasses]
  rfl

/-! ## Runs of passes -/

theorem runAll_cons_eq_ok_iff {pass : Pass} {passes : List Pass} {space last : Namespace} :
    (runAll (pass :: passes) space).result = .ok last ↔
      ∃ next, (pass.run space).result = .ok next ∧ (runAll passes next).result = .ok last := by
  rw [runAll, Traced.result_bind, Traced.result_report]
  exact Traced.result_bind_eq_ok_iff

/-- What was settled before a run of passes is settled after it. -/
theorem SettledIn.of_runAll {other : Pass} {passes : List Pass} {space last : Namespace}
    (h : other.SettledIn space) (hrun : (runAll passes space).result = .ok last) :
    other.SettledIn last := by
  induction passes generalizing space with
  | nil =>
    obtain rfl := Except.ok.inj hrun
    exact h
  | cons pass passes ih =>
    obtain ⟨next, hnext, hlast⟩ := runAll_cons_eq_ok_iff.1 hrun
    exact ih (h.of_run hnext) hlast

/-- A run of passes that succeeds has settled the namespace for each of them. -/
theorem settledIn_of_runAll {passes : List Pass} {space last : Namespace}
    (hrun : (runAll passes space).result = .ok last) : ∀ pass ∈ passes, pass.SettledIn last := by
  induction passes generalizing space with
  | nil =>
    intro pass hpass
    cases hpass
  | cons first passes ih =>
    obtain ⟨next, hnext, hlast⟩ := runAll_cons_eq_ok_iff.1 hrun
    intro pass hpass
    rcases List.mem_cons.1 hpass with rfl | hpass
    · exact (settledIn_of_run hnext).of_runAll hlast
    · exact ih hlast pass hpass

/-- A run of passes over a namespace that is settled for all of them: it reports that they begin,
and nothing else. -/
def idleRun (passes : List Pass) (space : Namespace) : Traced PassFault Namespace where
  events := passes.map fun pass => .passStarted pass.name space.displayName
  result := .ok space

theorem runAll_of_settledIn {passes : List Pass} {space : Namespace}
    (h : ∀ pass ∈ passes, pass.SettledIn space) : runAll passes space = idleRun passes space := by
  induction passes with
  | nil => rfl
  | cons pass passes ih =>
    have hfirst := run_of_settledIn (h pass List.mem_cons_self)
    have hrest := ih fun other hother => h other (List.mem_cons_of_mem pass hother)
    rw [runAll, hfirst]
    simp only [bind, pure, Traced.report, hrest, idleRun, List.nil_append, List.map_cons,
      List.singleton_append]

/-- Passes that succeed, whichever they are and in whatever order, do nothing when they are run
again. -/
theorem runAll_of_runAll {passes : List Pass} {space last : Namespace}
    (h : (runAll passes space).result = .ok last) : runAll passes last = idleRun passes last :=
  runAll_of_settledIn (settledIn_of_runAll h)

end Pass

/-! ## The usual passes -/

/-- The usual passes are settled after one run: they succeed on every namespace, and run again on
what they yield they succeed, change nothing and report nothing but that they begin. Each of them
alone, where it succeeds, does nothing to what it yields. -/
theorem pipeline_settles (settings : Settings) :
    (∀ space, ∃ settled, (Pass.pipeline settings space).result = .ok settled ∧
        Pass.pipeline settings settled = Pass.idleRun (Pass.standard settings) settled ∧
        (Pass.pipeline settings settled).result = .ok settled) ∧
      ∀ pass ∈ Pass.standard settings, ∀ space settled,
        (pass.run space).result = .ok settled → pass.run settled = pure settled := by
  constructor
  · intro space
    have hfirst := Pass.result_pipeline settings space
    have hagain := Pass.runAll_of_runAll hfirst
    refine ⟨_, hfirst, hagain, ?_⟩
    rw [Pass.pipeline, hagain]
    rfl
  · intro pass _ space settled hrun
    exact Pass.run_of_settledIn (Pass.settledIn_of_run hrun)

/-- A namespace in which every usual pass but the last one finds something to do. -/
def unsettledSpace : Namespace where
  name := some "Bank"
  types := [
    .ofClass {
      name := "Account"
      fields := [{ entity := { name := "total" } },
        { entity := { name := "id", attributes := "[System.CompilerGeneratedAttribute]" } }]
      properties := [{ entity := { name := "Id", type := "int" }, getter := some {} }]
      constructors := [{ body := { text := "LicenseManager.Validate();" } },
        { body := { text := "total = 0;" } }]
      indexers := [{ entity := { name := "Item" }, getter := some {}, setter := some {} }] },
    .ofEnum { name := "Currency" }]

/-- What the usual passes make of `unsettledSpace`. -/
def settledSpace : Namespace where
  name := some "Bank"
  types := [
    .ofClass {
      name := "Account"
      fields := [{ entity := { name := "total" } }]
      constructors := [{ body := { text := "total = 0;" } }]
      methods := [
        { entity := { name := "getItem", flags := { isPublic := true } } },
        { entity := { name := "setItem", type := "void", flags := { isPublic := true } } },
        { entity := { name := "getId", type := "int", flags := { isPublic := true } } }] },
    .ofEnum { name := "Currency" }]

theorem pipeline_settles_unsettledSpace :
    (Pass.pipeline {} unsettledSpace).result = .ok settledSpace ∧
      settledSpace ≠ unsettledSpace ∧
      (Pass.pipeline {} settledSpace).result = .ok settledSpace ∧
      Pass.rename ∈ Pass.standard {} ∧
      (Pass.rename.run settledSpace).result = .ok settledSpace ∧
      Pass.rename.run settledSpace = pure settledSpace := by
  have hfirst : (Pass.pipeline {} unsettledSpace).result = .ok settledSpace := by decide +kernel
  have hmem : Pass.rename ∈ Pass.standard {} := by decide
  have hrename : (Pass.rename.run settledSpace).result = .ok settledSpace := rfl
  obtain ⟨hpipeline, hpasses⟩ := pipeline_settles {}
  obtain ⟨settled, hsettled, -, hagain⟩ := hpipeline unsettledSpace
  obtain rfl : settled = settledSpace := Except.ok.inj (hsettled.symm.trans hfirst)
  exact ⟨hfirst, by decide, hagain, hmem, hrename, hpasses .rename hmem _ _ hrename⟩

end Recast
