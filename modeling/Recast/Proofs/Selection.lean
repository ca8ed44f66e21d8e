import Recast.Command.Plan
import Recast.Proofs.MergePass
import Recast.Proofs.Units

/-!
# Selecting a namespace by its name

A namespace is asked for by the name that is displayed for it. The empty text asks for the namespace
without a name, whose displayed name is empty. So there is a text for every namespace but one: a
namespace that is declared with an empty name is displayed like the one without a name, and no text
asks for it (`select_namelessUnit`).

Every other namespace is selected by its displayed name, alone (`select_displayName`), and a text
that is not empty selects nothing only if no namespace is displayed so
(`select_fails_iff_displayName`). What is printed for a selected namespace is what the whole listing
has for it (`transpile_selected`).
-/

set_option autoImplicit false

namespace Recast

/-! ## Merged namespaces by name -/

/-- Under a name, a merged program has the namespace of this name. -/
theorem get?_merge_eq_some_iff {fragments : List Namespace} {name : Option String}
    {space : Namespace} :
    (merge fragments).get? name = some space ↔
      space ∈ (merge fragments).namespaces ∧ space.name = name := by
  constructor
  · intro h
    exact ⟨List.mem_of_find?_eq_some h, Merged.name_eq_of_get? h⟩
  · rintro ⟨hmem, rfl⟩
    exact Keyed.find?_key_eq_some (nodup_names_merge fragments) hmem

theorem Merged.get?_eq_none_iff {merged : Merged} {name : Option String} :
    merged.get? name = none ↔ ∀ space ∈ merged.namespaces, space.name ≠ name := by
  rw [get?, List.find?_eq_none]
  simp only [decide_eq_true_iff, ne_eq]

namespace Command

/-! ## Selection -/

/-- The name that a text asks for. -/
def nameAskedFor (text : String) : Option String :=
  if text = "" then none else some text

theorem nameAskedFor_of_ne {text : String} (h : text ≠ "") : nameAskedFor text = some text :=
  if_neg h

/-- The displayed name asks for the name, unless the name is there and empty. -/
theorem nameAskedFor_displayName {space : Namespace} (h : space.name ≠ some "") :
    nameAskedFor space.displayName = space.name := by
  rw [Namespace.displayName]
  cases hname : space.name with
  | none => rfl
  | some name =>
    apply nameAskedFor_of_ne
    rintro rfl
    exact h hname

/-- A text selects one namespace or none. -/
theorem select_some (merged : Merged) (text : String) :
    select merged (some text)
      = match merged.get? (nameAskedFor text) with
        | some space => .ok [space]
        | none => .error (.noNamespace text) :=
  rfl

theorem select_eq_ok_of_get? {merged : Merged} {text : String} {space : Namespace}
    (h : merged.get? (nameAskedFor text) = some space) :
    select merged (some text) = .ok [space] := by
  rw [select_some, h]

theorem select_fails_iff {merged : Merged} {text : String} :
    (∃ failure, select merged (some text) = .error failure) ↔
      ∀ space ∈ merged.namespaces, space.name ≠ nameAskedFor text := by
  rw [← Merged.get?_eq_none_iff, select_some]
  cases merged.get? (nameAskedFor text) with
  | none => simp
  | some space => simp

/-- The displayed name of a namespace selects it and nothing else. -/
theorem select_displayName {fragments : List Namespace} {space : Namespace}
    (hmem : space ∈ (merge fragments).namespaces) (hname : space.name ≠ some "") :
    select (merge fragments) (some space.displayName) = .ok [space] := by
  apply select_eq_ok_of_get?
  apply get?_merge_eq_some_iff.2
  exact ⟨hmem, (nameAskedFor_displayName hname).symm⟩

/-- A text that is not empty selects nothing if and only if no namespace is displayed so. -/
theorem select_fails_iff_displayName {merged : Merged} {text : String} (htext : text ≠ "") :
    (∃ failure, select merged (some text) = .error failure) ↔
      ∀ space ∈ merged.namespaces, space.displayName ≠ text := by
  have hdisplay : ∀ space : Namespace, space.name = some text ↔ space.displayName = text := by
    intro space
    rw [Namespace.displayName]
    cases space.name with
    | none => simp [htext.symm]
    | some name => simp
  rw [select_fails_iff, nameAskedFor_of_ne htext]
  simp only [ne_eq, hdisplay]

/-! ## Transpiling -/

/-- A namespace as it is delivered: after the usual passes, or as it was built. -/
def finished (settings : Settings) (transformed : Bool) (space : Namespace) : Namespace :=
  if transformed then space.mapClasses (Pass.lower settings) else space

/-- The text of a namespace in a listing. -/
def printed (settings : Settings) (transformed : Bool) (space : Namespace) : String :=
  Listing.space (finished settings transformed space)

/-- The usual passes succeed on any namespaces. -/
theorem result_transform (settings : Settings) (spaces : List Namespace) :
    (transform settings spaces).result
      = .ok (spaces.map (Namespace.mapClasses (Pass.lower settings))) := by
  induction spaces with
  | nil => rfl
  | cons space spaces ih =>
    have hfirst : ((Pass.pipeline settings space).mapFault
        (Failure.passFailed space.displayName)).result
        = .ok (space.mapClasses (Pass.lower settings)) :=
      Traced.result_mapFault_eq_ok_iff.2 (Pass.result_pipeline settings space)
    exact Traced.result_cons_eq_ok_iff.2 ⟨_, _, hfirst, ih, List.map_cons⟩

/-- What is built from the units of an input is merged, whoever builds it. -/
theorem result_mergedInput {workers : Workers} {source : Source} {input : String}
    {units : List Node} {fragments : List Namespace} {jobs : Option Nat}
    (hunits : (readUnits source input).result = .ok units)
    (hbuild : (Build.unitsWithJobs workers (jobs.getD workers.usual) units).result
      = .ok fragments) :
    (mergedInput workers source input jobs).result = .ok (merge fragments) := by
  rw [mergedInput, Traced.result_bind_eq_ok_iff]
  refine ⟨units, hunits, ?_⟩
  rw [Traced.result_bind_eq_ok_iff]
  exact ⟨fragments, Traced.result_mapFault_eq_ok_iff.2 hbuild, rfl⟩

/-- Transpiling delivers the namespaces that are asked for. -/
theorem result_planTranspile {workers : Workers} {source : Source} {input : String}
    {options : TranspileOptions} {settings : Settings} {merged : Merged} {spaces : List Namespace}
    (hsettings : (transpileSettings source options).result = .ok settings)
    (hmerged : (mergedInput workers source input options.jobs).result = .ok merged)
    (hselect : select merged options.space = .ok spaces) :
    (planTranspile workers source input options).result
      = .ok (deliver (spaces.map (finished settings options.transform)) options.destination) := by
  rw [planTranspile, Traced.result_bind_eq_ok_iff]
  refine ⟨settings, hsettings, ?_⟩
  rw [Traced.result_bind_eq_ok_iff]
  refine ⟨merged, hmerged, ?_⟩
  rw [Traced.result_bind_eq_ok_iff]
  refine ⟨spaces, hselect, ?_⟩
  cases options.transform with
  | true =>
    apply Traced.result_bind_eq_ok_iff.2
    exact ⟨_, result_transform settings spaces, rfl⟩
  | false =>
    have hsame : spaces.map (finished settings false) = spaces := List.map_id spaces
    rw [hsame]
    rfl

/-- The options to print the namespaces that are asked for on the standard output. -/
def TranspileOptions.printing (options : TranspileOptions) (space : Option String) :
    TranspileOptions :=
  { options with space, destination := .standardOutput }

/-- Transpiling prints the namespaces that are asked for, one after the other. -/
theorem result_planTranspile_printing {workers : Workers} {source : Source} {input : String}
    {options : TranspileOptions} {settings : Settings} {merged : Merged} {text : Option String}
    {spaces : List Namespace} (hsettings : (transpileSettings source options).result = .ok settings)
    (hmerged : (mergedInput workers source input options.jobs).result = .ok merged)
    (hselect : select merged text = .ok spaces) :
    (planTranspile workers source input (options.printing text)).result
      = .ok { output := String.join (spaces.map (printed settings options.transform)) } := by
  have hplan : (planTranspile workers source input (options.printing text)).result
      = .ok (deliver (spaces.map (finished settings options.transform)) .standardOutput) :=
    result_planTranspile hsettings hmerged hselect
  have hlisting : listing (spaces.map (finished settings options.transform))
      = String.join (spaces.map (printed settings options.transform)) := by
    rw [listing, List.map_map]
    rfl
  rw [hplan, deliver, hlisting]

/-- Every namespace of an input that builds can be selected by its displayed name, unless it was
declared with an empty name: the selection is this namespace alone, and what is printed for it is
what the whole listing has for it. A text that is not empty selects nothing if and only if no
namespace is displayed so, and the empty text if and only if every namespace has a name. What is
printed does not depend on the workers, as long as they are there. -/
theorem transpile_selected {workers : Workers} {jobs : Nat} {units : List Node}
    {fragments : List Namespace}
    (hbuild : (Build.unitsWithJobs workers jobs units).result = .ok fragments) :
    (∀ space ∈ (merge fragments).namespaces, space.name ≠ some "" →
        select (merge fragments) (some space.displayName) = .ok [space]) ∧
      (∀ text, text ≠ "" →
        ((∃ failure, select (merge fragments) (some text) = .error failure) ↔
          ∀ space ∈ (merge fragments).namespaces, space.displayName ≠ text)) ∧
      ((∃ failure, select (merge fragments) (some "") = .error failure) ↔
        ∀ space ∈ (merge fragments).namespaces, space.name ≠ none) ∧
      ∀ (others : Workers) source input options settings,
        others.Starts (options.jobs.getD others.usual) →
        (readUnits source input).result = .ok units →
        (transpileSettings source options).result = .ok settings →
        (planTranspile others source input (options.printing none)).result = .ok {
            output := String.join <|
              (merge fragments).namespaces.map (printed settings options.transform) } ∧
          ∀ space ∈ (merge fragments).namespaces, space.name ≠ some "" →
            (planTranspile others source input (options.printing (some space.displayName))).result
              = .ok { output := printed settings options.transform space } := by
  refine ⟨fun space => select_displayName, fun text => select_fails_iff_displayName,
    select_fails_iff, ?_⟩
  intro others source input options settings hstarts hunits hsettings
  have hmerged := result_mergedInput hunits (Build.result_unitsWithJobs_of_starts hbuild hstarts)
  constructor
  · exact result_planTranspile_printing hsettings hmerged rfl
  · intro space hspace hname
    have hselect := select_displayName hspace hname
    rw [result_planTranspile_printing hsettings hmerged hselect, List.map_singleton]
    simp [String.join]

/-- The text of a dump of a class outside of all namespaces and of a namespace. -/
def twoUnitsText : String :=
  "[\x7b\"kind\":\"class\",\"name\":\"A\"\x7d,\x7b\"kind\":\"namespace\",\"name\":\"N\"\x7d]"

/-- The fragments of the units in `twoUnitsText`. -/
def twoFragments : List Namespace :=
  [{ types := [.ofClass { name := "A" }] }, { name := some "N" }]

theorem transpile_selected_twoUnits :
    ∃ units, (readUnits (fun _ => some twoUnitsText) "in.json").result = .ok units ∧
      (Build.unitsWithJobs .alone 1 units).result = .ok twoFragments ∧
      select (merge twoFragments) (some "") = .ok [{ types := [.ofClass { name := "A" }] }] ∧
      (planTranspile .alone (fun _ => some twoUnitsText) "in.json"
          (({} : TranspileOptions).printing (some "N"))).result
        = .ok { output := printed {} true { name := some "N" } } := by
  have hread : ((readUnits (fun _ => some twoUnitsText) "in.json").result.toOption.bind fun units =>
      (Build.unitsWithJobs .alone 1 units).result.toOption) = some twoFragments := by
    decide +kernel
  have hok : ∀ {ε α : Type} {result : Except ε α} {a : α},
      result.toOption = some a → result = .ok a := by
    rintro ε α (error | b) a h <;> cases h
    rfl
  obtain ⟨units, hunits, hbuild⟩ := Option.bind_eq_some_iff.1 hread
  have hunits := hok hunits
  have hbuild := hok hbuild
  have hunnamed : { types := [.ofClass { name := "A" }] } ∈ (merge twoFragments).namespaces := by
    decide
  have hnamed : { name := some "N" } ∈ (merge twoFragments).namespaces := by
    decide
  have hdisplay : ({ name := some "N" } : Namespace).displayName = "N" := rfl
  obtain ⟨hselect, -, -, hprint⟩ := transpile_selected hbuild
  obtain ⟨-, hprint⟩ := hprint .alone _ _ {} {} rfl hunits rfl
  have hprinted := hprint _ hnamed (by decide)
  rw [hdisplay] at hprinted
  have hselected := hselect _ hunnamed (by decide)
  exact ⟨units, hunits, hbuild, hselected, hprinted⟩

/-- A namespace that is declared with an empty name. -/
def namelessUnit : Node :=
  { kind := .namespaceDecl, children := [{ kind := .classDecl, name := "A" }] }

/-- No text asks for a namespace that is declared with an empty name: the text that is displayed for
it asks for another one, which need not be there. -/
theorem select_namelessUnit :
    ∃ fragments space, (Build.unitsWithJobs .alone 1 [namelessUnit]).result = .ok fragments ∧
      space ∈ (merge fragments).namespaces ∧ space.displayName = "" ∧
      select (merge fragments) (some space.displayName) = .error (.noNamespace "") := by
  refine ⟨[{ name := some "", types := [.ofClass { name := "A" }] }],
    { name := some "", types := [.ofClass { name := "A" }] }, ?_, ?_, ?_, ?_⟩
  · rfl
  · decide
  · rfl
  · rfl

end Command

end Recast
