import Mathlib.Data.List.Forall2
import Mathlib.Data.List.Infix
import Recast.Pass.Basic

/-!
# What the passes make of a namespace

Every pass but the last one changes each class by itself and cannot fail, so a run of such passes is
one change of each class (`result_runAll_of_forall_ne_rename`). The usual passes leave no class with
properties or indexers, so that the last pass has nothing to refuse (`result_pipeline`).

The relation `Lowers` says what the usual passes make of a class, without the passes: which fields
and constructors stay, and which methods come from which accessors, with their names, types,
parameters, bodies and flags. `pipeline_lowers` says that the usual passes always succeed and do
exactly this to every class and nothing to an enumeration.
-/

set_option autoImplicit false

namespace Recast

/-! ## Runs of passes -/

namespace TypeDecl

theorem mapClass_mapClass (f g : ClassDecl → ClassDecl) (type : TypeDecl) :
    (type.mapClass f).mapClass g = type.mapClass (g ∘ f) := by
  cases type <;> rfl

theorem class?_mapClass (f : ClassDecl → ClassDecl) (type : TypeDecl) :
    (type.mapClass f).class? = type.class?.map f := by
  cases type <;> rfl

theorem mapClass_id (type : TypeDecl) : type.mapClass id = type := by
  cases type <;> rfl

end TypeDecl

namespace Namespace

theorem mapClasses_mapClasses (f g : ClassDecl → ClassDecl) (space : Namespace) :
    (space.mapClasses f).mapClasses g = space.mapClasses (g ∘ f) := by
  rw [mapClasses, mapClasses, mapClasses, List.map_map]
  congr 1
  exact List.map_congr_left fun type _ => TypeDecl.mapClass_mapClass f g type

theorem mapClasses_id (space : Namespace) : space.mapClasses id = space := by
  rw [mapClasses, List.map_congr_left fun type _ => TypeDecl.mapClass_id type, List.map_id']

theorem classes_mapClasses (f : ClassDecl → ClassDecl) (space : Namespace) :
    (space.mapClasses f).classes = space.classes.map f := by
  rw [classes, mapClasses, List.filterMap_map, classes, List.map_filterMap]
  exact List.filterMap_congr fun type _ => TypeDecl.class?_mapClass f type

end Namespace

namespace Pass

/-- What several passes make of a class, one after the other. -/
def onClassAll (passes : List Pass) (decl : ClassDecl) : ClassDecl :=
  passes.foldl (fun decl pass => pass.onClass decl) decl

/-- A pass without a fault changes every class. -/
theorem result_run_of_fault? {pass : Pass} {space : Namespace} (h : pass.fault? space = none) :
    (pass.run space).result = .ok (space.mapClasses pass.onClass) := by
  rw [run, h]
  rfl

/-- Only the last of the usual passes can refuse a namespace. -/
theorem fault?_eq_none_of_ne_rename {pass : Pass} (h : pass ≠ .rename) (space : Namespace) :
    pass.fault? space = none := by
  cases pass with
  | rename => exact absurd rfl h
  | removeGenerated label => rfl
  | removeLicensed marker => rfl
  | lowerIndexers => rfl
  | lowerProperties => rfl

theorem fault?_rename_eq_none_iff {space : Namespace} :
    Pass.rename.fault? space = none ↔
      ∀ decl ∈ space.classes, decl.hasAccessorMembers = false := by
  rw [fault?, Option.map_eq_none_iff, List.find?_eq_none]
  simp only [Bool.not_eq_true]

/-- The first pass of a run comes before the others. -/
theorem result_runAll_cons (pass : Pass) (passes : List Pass) (space : Namespace) :
    (runAll (pass :: passes) space).result
      = (pass.run space).result >>= fun next => (runAll passes next).result := by
  rw [runAll, Traced.result_bind, Traced.result_report]
  exact Traced.result_bind _ _

theorem result_runAll_append (first next : List Pass) (space : Namespace) :
    (runAll (first ++ next) space).result
      = (runAll first space).result >>= fun middle => (runAll next middle).result := by
  induction first generalizing space with
  | nil => rfl
  | cons pass first ih =>
    rw [List.cons_append, result_runAll_cons, result_runAll_cons, bind_assoc]
    simp only [ih]

/-- A run of passes that cannot fail is one change of each class. -/
theorem result_runAll_of_forall_ne_rename {passes : List Pass}
    (h : ∀ pass ∈ passes, pass ≠ .rename) (space : Namespace) :
    (runAll passes space).result = .ok (space.mapClasses (onClassAll passes)) := by
  induction passes generalizing space with
  | nil =>
    have hid : onClassAll [] = id := rfl
    rw [hid, Namespace.mapClasses_id]
    rfl
  | cons pass passes ih =>
    have hrun := result_run_of_fault?
      (fault?_eq_none_of_ne_rename (h pass List.mem_cons_self) space)
    rw [result_runAll_cons, hrun]
    refine (ih (fun other hother => h other (List.mem_cons_of_mem pass hother)) _).trans ?_
    rw [Namespace.mapClasses_mapClasses]
    rfl

/-- The usual passes but the last one. -/
def changing (settings : Settings) : List Pass :=
  [.removeGenerated settings.generatedAttribute, .removeLicensed settings.licenseMarker,
    .lowerIndexers, .lowerProperties]

/-- What the usual passes make of a class. -/
def lower (settings : Settings) (decl : ClassDecl) : ClassDecl :=
  onClassAll (changing settings) decl

/-- The usual passes succeed on every namespace: when the last one runs, every class is lowered. -/
theorem result_pipeline (settings : Settings) (space : Namespace) :
    (pipeline settings space).result = .ok (space.mapClasses (lower settings)) := by
  have hstandard : standard settings = changing settings ++ [.rename] := rfl
  have hchanging : ∀ pass ∈ changing settings, pass ≠ .rename := by
    intro pass hpass
    simp only [changing, List.mem_cons, List.not_mem_nil, or_false] at hpass
    rcases hpass with rfl | rfl | rfl | rfl <;> exact Pass.noConfusion
  -- Lowering leaves no properties and indexers, whatever a class had before.
  have hlowered : Pass.rename.fault? (space.mapClasses (lower settings)) = none := by
    rw [fault?_rename_eq_none_iff, Namespace.classes_mapClasses]
    intro decl hdecl
    obtain ⟨before, -, rfl⟩ := List.mem_map.1 hdecl
    rfl
  rw [pipeline, hstandard, result_runAll_append, result_runAll_of_forall_ne_rename hchanging]
  refine (result_runAll_cons .rename [] (space.mapClasses (lower settings))).trans ?_
  rw [result_run_of_fault? hlowered]
  exact congrArg Except.ok (Namespace.mapClasses_id _)

end Pass

/-! ## What is removed -/

/-- The attributes of a field name the attribute that is looked for, if there is one. -/
def NamesAttribute (label : String) (field : FieldDecl) : Prop :=
  Attribute.bareName label.toList ≠ [] ∧
    Attribute.bareName label.toList ∈ Attribute.names field.entity.attributes.toList

instance (label : String) : DecidablePred (NamesAttribute label) :=
  fun _ => inferInstanceAs (Decidable (_ ∧ _))

/-- The body of a constructor holds the marker that is looked for, if there is one. -/
def HoldsMarker (marker : String) (routine : Routine) : Prop :=
  marker ≠ "" ∧ marker.toList <:+: routine.body.text.toList

instance (marker : String) : DecidablePred (HoldsMarker marker) :=
  fun _ => inferInstanceAs (Decidable (_ ∧ _))

namespace Pass

theorem isGenerated_eq (label : String) (field : FieldDecl) :
    isGenerated label field = decide (NamesAttribute label field) := by
  rw [Bool.eq_iff_iff, decide_eq_true_iff, isGenerated, NamesAttribute, Bool.and_eq_true,
    List.contains_iff_mem]
  simp

theorem occursIn_iff_isInfix {part s : List Char} : occursIn part s = true ↔ part <:+: s := by
  induction s with
  | nil => rw [occursIn, List.isEmpty_iff, List.infix_nil]
  | cons c s ih =>
    rw [occursIn, Bool.or_eq_true, List.isPrefixOf_iff_prefix, ih, List.infix_cons_iff]

theorem isLicensed_eq (marker : String) (routine : Routine) :
    isLicensed marker routine = decide (HoldsMarker marker routine) := by
  rw [Bool.eq_iff_iff, decide_eq_true_iff, isLicensed, HoldsMarker, Bool.and_eq_true,
    occursIn_iff_isInfix]
  simp

end Pass

/-! ## What accessors become -/

/-- The two sorts of accessors. -/
inductive AccessorSort where
  | getter
  | setter
deriving DecidableEq, Repr

/-- What the name of the method made from an accessor begins with. -/
def AccessorSort.verb : AccessorSort → String
  | .getter => "get"
  | .setter => "set"

/-- An accessor with the property or indexer that has it. -/
structure Slot where
  member : Property
  sort : AccessorSort
  accessor : Accessor
deriving DecidableEq, Repr

/-- The accessors of a property or indexer, the getter first. -/
def Property.slots (member : Property) : List Slot :=
  (member.getter.map fun accessor => { member, sort := .getter, accessor }).toList
    ++ (member.setter.map fun accessor => { member, sort := .setter, accessor }).toList

namespace Slot

/-- The type of the method made from an accessor. -/
def type (slot : Slot) : String :=
  match slot.sort with
  | .getter => slot.member.entity.type
  | .setter => "void"

/-- The parameters of the method made from an accessor of a property. -/
def valueParameters (slot : Slot) : List Parameter :=
  match slot.sort with
  | .getter => []
  | .setter => [{ name := "value", type := slot.member.entity.type, defaultValue := none }]

/-- The flags that tell the visibility of an accessor: its own if it has some, else those of its
property or indexer. -/
def visibility (slot : Slot) : Flags :=
  let own := slot.accessor.entity.flags
  if own.isPublic || own.isPrivate || own.isInternal then own else slot.member.entity.flags

/-- A method that was made from an accessor. -/
structure BecomesWith (slot : Slot) (parameters : List Parameter) (method : Routine) : Prop where
  name_eq : method.entity.name = slot.sort.verb ++ slot.member.entity.name
  type_eq : method.entity.type = slot.type
  parameters_eq : method.parameters = parameters
  body_eq : method.body = slot.accessor.body
  private_eq : method.entity.flags.isPrivate
    = (slot.visibility.isPrivate || slot.visibility.isInternal)
  public_eq : method.entity.flags.isPublic = !method.entity.flags.isPrivate
  internal_eq : method.entity.flags.isInternal = false
  static_eq : method.entity.flags.isStatic = slot.member.entity.flags.isStatic
  override_eq : method.entity.flags.isOverride = slot.member.entity.flags.isOverride
  attributes_eq : method.entity.attributes = ""

theorem visibilityCount_pos_iff (flags : Flags) :
    0 < flags.visibilityCount ↔ (flags.isPublic || flags.isPrivate || flags.isInternal) = true := by
  rw [Flags.visibilityCount, List.count_pos_iff, Bool.or_eq_true, Bool.or_eq_true]
  simp only [List.mem_cons, List.not_mem_nil, or_false, @eq_comm Bool true, or_assoc]

/-- The flags of a lowered accessor say private or public after its visibility. -/
theorem loweredFlags_eq (slot : Slot) :
    Property.loweredFlags slot.member.entity.flags slot.accessor.entity.flags
      = { isPublic := !(slot.visibility.isPrivate || slot.visibility.isInternal)
          isPrivate := slot.visibility.isPrivate || slot.visibility.isInternal
          isOverride := slot.member.entity.flags.isOverride
          isStatic := slot.member.entity.flags.isStatic } := by
  simp only [Property.loweredFlags, visibilityCount_pos_iff, visibility, Flags.isRestricted]
  split <;> rfl

theorem becomesWith_lowered (slot : Slot) (parameters : List Parameter) :
    slot.BecomesWith parameters
      (Property.lowered slot.member.entity (slot.sort.verb ++ slot.member.entity.name) slot.type
        parameters slot.accessor) := by
  constructor <;> simp [Property.lowered, loweredFlags_eq]

end Slot

namespace Property

/-- The methods of a property or indexer come from its accessors in order. -/
theorem forall₂_methodsWith {member : Property} {getterParameters setterParameters : List Parameter}
    {parameters : Slot → List Parameter}
    (hgetter : ∀ accessor, parameters { member, sort := .getter, accessor } = getterParameters)
    (hsetter : ∀ accessor, parameters { member, sort := .setter, accessor } = setterParameters) :
    List.Forall₂ (fun slot => slot.BecomesWith (parameters slot)) member.slots
      (member.methodsWith getterParameters setterParameters) := by
  have hone : ∀ slot : Slot, slot.BecomesWith (parameters slot) (lowered slot.member.entity
      (slot.sort.verb ++ slot.member.entity.name) slot.type (parameters slot) slot.accessor) :=
    fun slot => slot.becomesWith_lowered (parameters slot)
  refine List.rel_append ?_ ?_
  · cases member.getter with
    | none => exact .nil
    | some accessor =>
      refine .cons ?_ .nil
      rw [← hgetter accessor]
      exact hone { member, sort := .getter, accessor }
  · cases member.setter with
    | none => exact .nil
    | some accessor =>
      refine .cons ?_ .nil
      rw [← hsetter accessor]
      exact hone { member, sort := .setter, accessor }

/-- The methods of several properties or indexers come from their accessors in order. -/
theorem forall₂_flatMap_slots {becomes : Slot → Routine → Prop} {methods : Property → List Routine}
    (h : ∀ member : Property, List.Forall₂ becomes member.slots (methods member))
    (members : List Property) :
    List.Forall₂ becomes (members.flatMap slots) (members.flatMap methods) := by
  induction members with
  | nil => exact .nil
  | cons member members ih =>
    rw [List.flatMap_cons, List.flatMap_cons]
    exact List.rel_append (h member) ih

end Property

/-! ## The usual passes -/

/-- What the usual passes make of a class. -/
structure Lowers (settings : Settings) (before after : ClassDecl) : Prop where
  name_eq : after.name = before.name
  bases_eq : after.bases = before.bases
  fields_eq : after.fields
    = before.fields.filter fun field => ¬NamesAttribute settings.generatedAttribute field
  constructors_eq : after.constructors
    = before.constructors.filter fun routine => ¬HoldsMarker settings.licenseMarker routine
  properties_eq : after.properties = []
  indexers_eq : after.indexers = []
  methods_eq : ∃ fromIndexers fromProperties,
    after.methods = before.methods ++ fromIndexers ++ fromProperties ∧
      List.Forall₂ (fun slot => slot.BecomesWith slot.member.parameters)
        (before.indexers.flatMap Property.slots) fromIndexers ∧
      List.Forall₂ (fun slot => slot.BecomesWith slot.valueParameters)
        (before.properties.flatMap Property.slots) fromProperties

/-- What the usual passes make of a type: a class is lowered, an enumeration stays. -/
inductive LowersType (settings : Settings) : TypeDecl → TypeDecl → Prop
  | ofClass {before after : ClassDecl} :
      Lowers settings before after → LowersType settings (.ofClass before) (.ofClass after)
  | ofEnum (decl : EnumDecl) : LowersType settings (.ofEnum decl) (.ofEnum decl)

theorem lowers_lower (settings : Settings) (decl : ClassDecl) :
    Lowers settings decl (Pass.lower settings decl) := by
  have hfields : ∀ field ∈ decl.fields,
      (!Pass.isGenerated settings.generatedAttribute field)
        = decide (¬NamesAttribute settings.generatedAttribute field) := by
    intro field _
    rw [Pass.isGenerated_eq, decide_not]
  have hconstructors : ∀ routine ∈ decl.constructors,
      (!Pass.isLicensed settings.licenseMarker routine)
        = decide (¬HoldsMarker settings.licenseMarker routine) := by
    intro routine _
    rw [Pass.isLicensed_eq, decide_not]
  refine ⟨rfl, rfl, List.filter_congr hfields, List.filter_congr hconstructors, rfl, rfl, ?_⟩
  refine ⟨decl.indexers.flatMap Property.indexerMethods,
    decl.properties.flatMap Property.propertyMethods, rfl, ?_, ?_⟩
  · refine Property.forall₂_flatMap_slots (fun member => ?_) decl.indexers
    exact Property.forall₂_methodsWith (fun _ => rfl) (fun _ => rfl)
  · refine Property.forall₂_flatMap_slots (fun member => ?_) decl.properties
    exact Property.forall₂_methodsWith (fun _ => rfl) (fun _ => rfl)

/-- The usual passes succeed on every namespace. They keep its name, lower its classes and leave its
enumerations as they are. -/
theorem pipeline_lowers (settings : Settings) (space : Namespace) :
    ∃ lowered, (Pass.pipeline settings space).result = .ok lowered ∧
      lowered.name = space.name ∧
      List.Forall₂ (LowersType settings) space.types lowered.types := by
  refine ⟨_, Pass.result_pipeline settings space, rfl, ?_⟩
  rw [Namespace.mapClasses, List.forall₂_map_right_iff, List.forall₂_same]
  intro type _
  cases type with
  | ofClass decl => exact .ofClass (lowers_lower settings decl)
  | ofEnum decl => exact .ofEnum decl

end Recast
