import Mathlib.Data.List.Nodup
import Mathlib.Data.List.Pairwise
import Recast.Proofs.Changes
import Recast.Proofs.Selection

/-!
# One file for each type

The types of a program can be written to files, one for each, in a directory for each namespace. If
all names can stand in paths, the file of a type is determined by the directory of the namespace and
the name of the type, and nothing else (`Command.pieceFile_eq_iff`). After merging the names of
namespaces are different, and so are the names of types in each of them. But the directory does not
determine the namespace: the one without a name has the directory `_`, and so has a namespace of
this name.

So there is one file for each type if and only if these two do not share a type
(`Command.nodup_files_iff`), and then all types can be read after the run
(`Command.read?_typeFile`). If they share one, the run succeeds all the same, and the later of the
two is read in place of the earlier (`Command.read?_typeFile_of_clash`).
-/

set_option autoImplicit false

namespace Recast

open Command (IsFileName)

/-! ## Names of types and namespaces -/

/-- Some namespace of a name declares a type. -/
def DeclaredIn (spaces : List Namespace) (name : Option String) (type : String) : Prop :=
  ∃ space ∈ spaces, space.name = name ∧ space.declares type = true

instance (spaces : List Namespace) (name : Option String) (type : String) :
    Decidable (DeclaredIn spaces name type) :=
  inferInstanceAs (Decidable (∃ space ∈ spaces, space.name = name ∧ space.declares type = true))

theorem declaredIn_merge_iff {fragments : List Namespace} {name : Option String} {type : String} :
    DeclaredIn (merge fragments).namespaces name type ↔ DeclaredIn fragments name type := by
  have hunion := merge_isUnion fragments
  have hnames : ∀ {space}, space ∈ (merge fragments).namespaces →
      (space.declares type = true ↔ ∃ fragment ∈ fragments, fragment.name = space.name ∧
        fragment.declares type = true) := by
    intro space hspace
    rw [Namespace.declares_eq_true_iff, hunion.types_eq space hspace, List.mem_eraseDups,
      typesNamed, List.map_flatMap, List.mem_flatMap]
    simp only [List.mem_filter, decide_eq_true_iff, ← Namespace.declares_eq_true_iff, and_assoc]
  constructor
  · rintro ⟨space, hspace, rfl, hdeclares⟩
    exact (hnames hspace).1 hdeclares
  · rintro ⟨fragment, hfragment, rfl, hdeclares⟩
    have hname : fragment.name ∈ (merge fragments).namespaces.map Namespace.name := by
      rw [hunion.names_eq, List.mem_eraseDups]
      exact List.mem_map.2 ⟨fragment, hfragment, rfl⟩
    obtain ⟨space, hspace, heq⟩ := List.mem_map.1 hname
    exact ⟨space, hspace, heq, (hnames hspace).2 ⟨fragment, hfragment, heq.symm, hdeclares⟩⟩

namespace Namespace

/-- The name of the directory for the types of a namespace. -/
def folder (space : Namespace) : String :=
  space.name.getD "_"

/-- A namespace whose names can stand in paths. -/
structure HasFileNames (space : Namespace) : Prop where
  name : ∀ name ∈ space.name, IsFileName name
  types : ∀ type ∈ space.types, IsFileName type.name

instance (space : Namespace) : Decidable space.HasFileNames :=
  decidable_of_iff
    ((∀ name ∈ space.name, IsFileName name) ∧ ∀ type ∈ space.types, IsFileName type.name)
    ⟨fun h => ⟨h.1, h.2⟩, fun h => ⟨h.name, h.types⟩⟩

theorem HasFileNames.folder {space : Namespace} (h : space.HasFileNames) :
    IsFileName space.folder := by
  rw [Namespace.folder]
  cases hname : space.name with
  | none => decide
  | some name => exact h.name name hname

/-- Of two different namespaces with one directory, one has no name and the other is `_`. -/
theorem names_of_folder_eq {one other : Namespace} (h : one.folder = other.folder)
    (hne : one.name ≠ other.name) :
    one.name = none ∧ other.name = some "_" ∨ one.name = some "_" ∧ other.name = none := by
  rw [folder, folder] at h
  cases hone : one.name with
  | none =>
    cases hother : other.name with
    | none => exact absurd (hone.trans hother.symm) hne
    | some name =>
      rw [hone, hother] at h
      exact Or.inl ⟨rfl, congrArg some h.symm⟩
  | some name =>
    cases hother : other.name with
    | none =>
      rw [hone, hother] at h
      exact Or.inr ⟨congrArg some h, rfl⟩
    | some twin =>
      rw [hone, hother] at h hne
      exact absurd (congrArg some h) hne

/-- A directory has room for two namespaces at most. -/
theorem name_eq_of_folder_eq {one other third : Namespace} (hother : one.folder = other.folder)
    (hthird : one.folder = third.folder) (hotherNe : one.name ≠ other.name)
    (hthirdNe : one.name ≠ third.name) : other.name = third.name := by
  rcases names_of_folder_eq hother hotherNe with ⟨hone, hname⟩ | ⟨hone, hname⟩
  · rcases names_of_folder_eq hthird hthirdNe with ⟨-, hname'⟩ | ⟨hone', -⟩
    · rw [hname, hname']
    · rw [hone] at hone'
      cases hone'
  · rcases names_of_folder_eq hthird hthirdNe with ⟨hone', -⟩ | ⟨-, hname'⟩
    · rw [hone] at hone'
      cases hone'
    · rw [hname, hname']

end Namespace

/-- Namespaces that can be written to files: their names are different, the names of types in each
of them are different, and all names can stand in paths. -/
structure Writable (spaces : List Namespace) : Prop where
  nodup_names : (spaces.map Namespace.name).Nodup
  nodup_types : ∀ space ∈ spaces, (space.types.map TypeDecl.name).Nodup
  hasFileNames : ∀ space ∈ spaces, space.HasFileNames

theorem Writable.name_ne {front rest : List Namespace} (h : Writable (front ++ rest))
    {one other : Namespace} (hone : one ∈ front) (hother : other ∈ rest) :
    one.name ≠ other.name := by
  have hnames := h.nodup_names
  rw [List.map_append, List.nodup_append] at hnames
  exact hnames.2.2 _ (List.mem_map.2 ⟨one, hone, rfl⟩) _ (List.mem_map.2 ⟨other, hother, rfl⟩)

theorem Writable.name_ne_of_mem_rest {before after : List Namespace} {space : Namespace}
    (h : Writable (before ++ space :: after)) {other : Namespace} (hother : other ∈ after) :
    space.name ≠ other.name := by
  rw [List.append_cons] at h
  exact h.name_ne (by simp) hother

theorem writable_merge {fragments : List Namespace}
    (h : ∀ fragment ∈ fragments, fragment.HasFileNames) :
    Writable (merge fragments).namespaces := by
  have hunion := merge_isUnion fragments
  refine ⟨hunion.nodup_names, hunion.nodup_types, ?_⟩
  intro space hspace
  constructor
  · intro name hname
    have hmem : space.name ∈ fragments.map Namespace.name := by
      rw [← List.mem_eraseDups, ← hunion.names_eq]
      exact List.mem_map.2 ⟨space, hspace, rfl⟩
    obtain ⟨fragment, hfragment, heq⟩ := List.mem_map.1 hmem
    exact (h fragment hfragment).name name (heq ▸ hname)
  · intro type htype
    have hmem : type.name ∈ (typesNamed fragments space.name).map TypeDecl.name := by
      rw [← List.mem_eraseDups, ← hunion.types_eq space hspace]
      exact List.mem_map.2 ⟨type, htype, rfl⟩
    obtain ⟨origin, horigin, heq⟩ := List.mem_map.1 hmem
    obtain ⟨fragment, hfragment, htypes⟩ := List.mem_flatMap.1 horigin
    rw [← heq]
    exact (h fragment (List.mem_of_mem_filter hfragment)).types origin htypes

namespace Command

theorem name_finished (settings : Settings) (transformed : Bool) (space : Namespace) :
    (finished settings transformed space).name = space.name := by
  cases transformed <;> rfl

theorem typeNames_finished (settings : Settings) (transformed : Bool) (space : Namespace) :
    (finished settings transformed space).types.map TypeDecl.name
      = space.types.map TypeDecl.name := by
  cases transformed with
  | false => rfl
  | true =>
    have hname := TypeDecl.name_mapClass (Pass.keepsNames_lower settings)
    simp [finished, Namespace.mapClasses, hname]

/-- The namespaces that are delivered for some fragments. -/
def delivered (settings : Settings) (transformed : Bool) (fragments : List Namespace) :
    List Namespace :=
  (merge fragments).namespaces.map (finished settings transformed)

theorem hasFileNames_finished {space : Namespace} (h : space.HasFileNames) (settings : Settings)
    (transformed : Bool) : (finished settings transformed space).HasFileNames := by
  constructor
  · rw [name_finished]
    exact h.name
  · intro type htype
    have hmem : type.name ∈ space.types.map TypeDecl.name := by
      rw [← typeNames_finished settings transformed]
      exact List.mem_map.2 ⟨type, htype, rfl⟩
    obtain ⟨origin, horigin, heq⟩ := List.mem_map.1 hmem
    exact heq ▸ h.types origin horigin

theorem writable_delivered {fragments : List Namespace}
    (h : ∀ fragment ∈ fragments, fragment.HasFileNames) (settings : Settings) (transformed : Bool) :
    Writable (delivered settings transformed fragments) := by
  obtain ⟨hnames, htypes, hfileNames⟩ := writable_merge h
  refine ⟨?_, ?_, ?_⟩
  · rw [delivered, List.map_map]
    have hsame : Namespace.name ∘ finished settings transformed = Namespace.name :=
      funext (name_finished settings transformed)
    rwa [hsame]
  · intro space hspace
    obtain ⟨origin, horigin, rfl⟩ := List.mem_map.1 hspace
    rw [typeNames_finished]
    exact htypes origin horigin
  · intro space hspace
    obtain ⟨origin, horigin, rfl⟩ := List.mem_map.1 hspace
    exact hasFileNames_finished (hfileNames origin horigin) settings transformed

theorem declaredIn_delivered_iff {settings : Settings} {transformed : Bool}
    {fragments : List Namespace} {name : Option String} {type : String} :
    DeclaredIn (delivered settings transformed fragments) name type ↔
      DeclaredIn fragments name type := by
  refine Iff.trans ?_ declaredIn_merge_iff
  have hdeclares : ∀ space : Namespace,
      (finished settings transformed space).declares type = true ↔ space.declares type = true := by
    intro space
    rw [Namespace.declares_eq_true_iff, Namespace.declares_eq_true_iff, typeNames_finished]
  simp only [DeclaredIn, delivered, List.mem_map, exists_exists_and_eq_and, name_finished,
    hdeclares]

/-! ## Files of types -/

/-- The pieces of a namespace have the names of its types. -/
theorem perm_names_pieces (space : Namespace) :
    ((Listing.pieces space).map Listing.Piece.name).Perm (space.types.map TypeDecl.name) := by
  rw [Listing.pieces, List.map_map]
  have hperm := List.perm_append_comm.trans (List.filter_append_perm TypeDecl.isEnum space.types)
  exact hperm.map TypeDecl.name

theorem declares_of_mem_pieces {space : Namespace} {piece : Listing.Piece}
    (h : piece ∈ Listing.pieces space) : space.declares piece.name = true := by
  rw [Namespace.declares_eq_true_iff, ← (perm_names_pieces space).mem_iff]
  exact List.mem_map.2 ⟨piece, h, rfl⟩

theorem exists_mem_pieces {space : Namespace} {name : String} (h : space.declares name = true) :
    ∃ piece ∈ Listing.pieces space, piece.name = name := by
  rw [Namespace.declares_eq_true_iff, ← (perm_names_pieces space).mem_iff] at h
  exact List.mem_map.1 h

theorem isFileName_concat_txt {name : String} (h : IsFileName name) :
    IsFileName (name ++ ".txt") := by
  -- Such a text is longer than the ones that stay or go up.
  have hlength : ∀ short : String, short.length < 4 → name ++ ".txt" ≠ short := by
    rintro short hshort rfl
    rw [String.length_append] at hshort
    have htxt : ".txt".length = 4 := by decide
    omega
  refine ⟨hlength _ (by decide), hlength _ (by decide), hlength _ (by decide), ?_⟩
  rw [String.toList_append, List.mem_append, not_or]
  exact ⟨h.not_mem_slash, by decide⟩

theorem isFileName_of_mem_pieces {space : Namespace} {piece : Listing.Piece}
    (h : space.HasFileNames) (hpiece : piece ∈ Listing.pieces space) :
    IsFileName (piece.name ++ ".txt") := by
  have hdeclares := declares_of_mem_pieces hpiece
  rw [Namespace.declares_eq_true_iff] at hdeclares
  obtain ⟨type, htype, heq⟩ := List.mem_map.1 hdeclares
  rw [← heq]
  exact isFileName_concat_txt (h.types type htype)

/-- The place of the file for the text of a type. -/
theorem placeOf_pieceFile {space : Namespace} {piece : Listing.Piece} (h : space.HasFileNames)
    (hpiece : piece ∈ Listing.pieces space) (top : Place) (directory : String) :
    Disk.placeOf top (pieceFile directory space piece)
      = Disk.inside top directory ++ [space.folder, piece.name ++ ".txt"] := by
  have hname := isFileName_of_mem_pieces h hpiece
  rw [pieceFile, Disk.placeOf_joinPath hname, spaceDirectory, ← Namespace.folder,
    Disk.inside_joinPath h.folder, List.append_assoc, List.singleton_append]

/-- Types of one name in namespaces with one directory go to one place, and all others to different
places. -/
theorem placeOf_pieceFile_eq_iff {one other : Namespace} {piece twin : Listing.Piece}
    (hone : one.HasFileNames) (hpiece : piece ∈ Listing.pieces one) (hother : other.HasFileNames)
    (htwin : twin ∈ Listing.pieces other) (top : Place) (directory : String) :
    Disk.placeOf top (pieceFile directory one piece)
        = Disk.placeOf top (pieceFile directory other twin) ↔
      one.folder = other.folder ∧ piece.name = twin.name := by
  rw [placeOf_pieceFile hone hpiece, placeOf_pieceFile hother htwin]
  simp

theorem pieceFile_eq_iff {one other : Namespace} {piece twin : Listing.Piece}
    (hone : one.HasFileNames) (hpiece : piece ∈ Listing.pieces one) (hother : other.HasFileNames)
    (htwin : twin ∈ Listing.pieces other) (directory : String) :
    pieceFile directory one piece = pieceFile directory other twin ↔
      one.folder = other.folder ∧ piece.name = twin.name := by
  constructor
  · intro h
    rw [← placeOf_pieceFile_eq_iff hone hpiece hother htwin [] directory, h]
  · rintro ⟨hfolder, hname⟩
    rw [Namespace.folder, Namespace.folder] at hfolder
    rw [pieceFile, pieceFile, spaceDirectory, spaceDirectory, hfolder, hname]

/-- The path of a file that a change writes. -/
def Change.file? : Change → Option String
  | .makeDirectory _ => none
  | .writeFile path _ => some path

/-- The paths of the files that a plan writes, in order. -/
def Plan.files (plan : Plan) : List String :=
  plan.changes.filterMap Change.file?

theorem files_deliver (spaces : List Namespace) (directory : String) :
    (deliver spaces (.directory directory)).files
      = spaces.flatMap fun space => (Listing.pieces space).map (pieceFile directory space) := by
  have hspace : ∀ space, (spaceChanges directory space).filterMap Change.file?
      = (Listing.pieces space).map (pieceFile directory space) := by
    intro space
    rw [spaceChanges, List.filterMap_cons_none rfl, List.filterMap_map, ← List.filterMap_eq_map]
    rfl
  rw [Plan.files, deliver, List.filterMap_flatMap]
  simp only [hspace]

/-- The namespace without a name and the namespace `_` have types of one name. -/
def Clashes (spaces : List Namespace) : Prop :=
  ∃ type, DeclaredIn spaces none type ∧ DeclaredIn spaces (some "_") type

instance (spaces : List Namespace) : Decidable (Clashes spaces) :=
  decidable_of_iff (∃ decl ∈ spaces.flatMap Namespace.types,
      DeclaredIn spaces none decl.name ∧ DeclaredIn spaces (some "_") decl.name) <| by
    constructor
    · rintro ⟨decl, -, hclash⟩
      exact ⟨decl.name, hclash⟩
    · rintro ⟨type, ⟨space, hspace, hname, hdeclares⟩, hother⟩
      obtain ⟨decl, hdecl, rfl⟩ := List.mem_map.1 (Namespace.declares_eq_true_iff.1 hdeclares)
      exact ⟨decl, List.mem_flatMap.2 ⟨space, hspace, hdecl⟩, ⟨space, hspace, hname, hdeclares⟩,
        hother⟩

theorem clashes_delivered_iff {settings : Settings} {transformed : Bool}
    {fragments : List Namespace} :
    Clashes (delivered settings transformed fragments) ↔ Clashes fragments := by
  simp only [Clashes, declaredIn_delivered_iff]

/-- Two namespaces with one directory that have types of one name clash. -/
theorem clashes_of_folder_eq {spaces : List Namespace} {one other : Namespace} {type : String}
    (hone : one ∈ spaces) (hother : other ∈ spaces) (hne : one.name ≠ other.name)
    (hfolder : one.folder = other.folder) (htype : one.declares type = true)
    (htwin : other.declares type = true) : Clashes spaces := by
  rcases Namespace.names_of_folder_eq hfolder hne with ⟨hnone, hsome⟩ | ⟨hsome, hnone⟩
  · exact ⟨type, ⟨one, hone, hnone, htype⟩, ⟨other, hother, hsome, htwin⟩⟩
  · exact ⟨type, ⟨other, hother, hnone, htwin⟩, ⟨one, hone, hsome, htype⟩⟩

theorem nodup_map_pieceFile {space : Namespace} (h : space.HasFileNames)
    (hnodup : (space.types.map TypeDecl.name).Nodup) (directory : String) :
    ((Listing.pieces space).map (pieceFile directory space)).Nodup := by
  have hnames := (perm_names_pieces space).nodup_iff.2 hnodup
  apply List.Nodup.map_on _ (List.Nodup.of_map _ hnames)
  intro piece hpiece twin htwin heq
  have hname := ((pieceFile_eq_iff h hpiece h htwin directory).1 heq).2
  exact List.inj_on_of_nodup_map hnames hpiece htwin hname

/-- Every type has a file of its own if and only if there is no clash. -/
theorem nodup_files_iff {spaces : List Namespace} (h : Writable spaces) (directory : String) :
    (deliver spaces (.directory directory)).files.Nodup ↔ ¬ Clashes spaces := by
  rw [files_deliver, List.nodup_flatMap]
  constructor
  · rintro ⟨-, hdisjoint⟩ ⟨type, ⟨one, hone, hnone, htype⟩, ⟨other, hother, hsome, htwin⟩⟩
    obtain ⟨piece, hpiece, hname⟩ := exists_mem_pieces htype
    obtain ⟨twin, htwin, htwinName⟩ := exists_mem_pieces htwin
    have hne : one ≠ other := by
      rintro rfl
      rw [hnone] at hsome
      cases hsome
    have hsymm : Std.Symm (Function.onFun List.Disjoint fun space =>
        (Listing.pieces space).map (pieceFile directory space)) :=
      ⟨fun _ _ hfree path hpath hsame => hfree hsame hpath⟩
    have heq : pieceFile directory one piece = pieceFile directory other twin := by
      apply (pieceFile_eq_iff (h.hasFileNames one hone) hpiece (h.hasFileNames other hother) htwin
        directory).2
      rw [Namespace.folder, Namespace.folder, hnone, hsome, hname, htwinName]
      exact ⟨rfl, rfl⟩
    exact hdisjoint.forall hone hother hne (List.mem_map.2 ⟨piece, hpiece, rfl⟩)
      (List.mem_map.2 ⟨twin, htwin, heq.symm⟩)
  · intro hclash
    constructor
    · intro space hspace
      exact nodup_map_pieceFile (h.hasFileNames space hspace) (h.nodup_types space hspace) directory
    · apply (List.pairwise_map.1 h.nodup_names).imp_of_mem
      intro one other hone hother hne path hpath hsame
      obtain ⟨piece, hpiece, rfl⟩ := List.mem_map.1 hpath
      obtain ⟨twin, htwin, heq⟩ := List.mem_map.1 hsame
      obtain ⟨hfolder, hname⟩ := (pieceFile_eq_iff (h.hasFileNames other hother) htwin
        (h.hasFileNames one hone) hpiece directory).1 heq
      have htype := declares_of_mem_pieces htwin
      rw [hname] at htype
      exact hclash (clashes_of_folder_eq hone hother hne hfolder.symm
        (declares_of_mem_pieces hpiece) htype)

/-! ## After the run -/

theorem target?_spaceChanges {space : Namespace} {directory : String} {change : Change}
    {top place : Place} (h : change ∈ spaceChanges directory space)
    (htarget : change.target? top = some place) :
    ∃ piece ∈ Listing.pieces space, place = Disk.placeOf top (pieceFile directory space piece) := by
  rw [spaceChanges, List.mem_cons] at h
  rcases h with rfl | h
  · cases htarget
  · obtain ⟨piece, hpiece, rfl⟩ := List.mem_map.1 h
    exact ⟨piece, hpiece, (Option.some.inj htarget).symm⟩

theorem placeOf_pieceFile_ne_nullDevice {space : Namespace} {piece : Listing.Piece}
    (h : space.HasFileNames) (hpiece : piece ∈ Listing.pieces space) (top : Place)
    (directory : String) :
    Disk.placeOf top (pieceFile directory space piece) ≠ Disk.nullDevice := by
  rw [placeOf_pieceFile h hpiece]
  intro heq
  have hlast := congrArg List.getLast? heq
  rw [List.getLast?_append_cons] at hlast
  have hname : piece.name ++ ".txt" = "null" := Option.some.inj hlast
  -- The two end with different letters.
  have hletter := congrArg (fun name : String => name.toList.getLast?) hname
  have htxt : ".txt".toList.getLast? = some 't' := by decide
  have hnull : "null".toList.getLast? = some 'l' := by decide
  rw [String.toList_append, List.getLast?_append, htxt, hnull, Option.some_or] at hletter
  exact absurd hletter (by decide)

/-- The last type that goes to a file can be read there after the run. -/
theorem read?_pieceFile {before after : List Namespace} {space : Namespace} {piece : Listing.Piece}
    {directory : String} {disk last : Disk} (h : Writable (before ++ space :: after))
    (hpiece : piece ∈ Listing.pieces space) (hdevice : disk.HasNoDevice)
    (hrun : disk.changeAll (deliver (before ++ space :: after) (.directory directory)).changes
      = (last, none))
    (hlater : ∀ other ∈ after, other.folder = space.folder → other.declares piece.name = false) :
    last.read? (pieceFile directory space piece) = some piece.text := by
  have hspace : space ∈ before ++ space :: after := by simp
  have hnames := h.hasFileNames space hspace
  obtain ⟨front, rest, hpieces⟩ := List.append_of_mem hpiece
  have hchanges : (deliver (before ++ space :: after) (.directory directory)).changes
      = (before.flatMap (spaceChanges directory)
          ++ .makeDirectory (spaceDirectory directory space)
          :: front.map fun piece => .writeFile (pieceFile directory space piece) piece.text)
        ++ .writeFile (pieceFile directory space piece) piece.text
        :: (rest.map (fun piece => .writeFile (pieceFile directory space piece) piece.text)
          ++ after.flatMap (spaceChanges directory)) := by
    simp [deliver, spaceChanges, hpieces]
  rw [hchanges] at hrun
  apply Disk.read?_of_changeAll hdevice
    (placeOf_pieceFile_ne_nullDevice hnames hpiece disk.top directory) hrun
  intro change hchange htarget
  rcases List.mem_append.1 hchange with hrest | hafter
  · -- A later type of the same namespace has another name.
    obtain ⟨twin, htwin, rfl⟩ := List.mem_map.1 hrest
    have hmem : twin ∈ Listing.pieces space := by simp [hpieces, htwin]
    have hname := ((placeOf_pieceFile_eq_iff hnames hmem hnames hpiece disk.top directory).1
      (Option.some.inj htarget)).2
    have hnodup := (perm_names_pieces space).nodup_iff.2 (h.nodup_types space hspace)
    rw [hpieces, List.map_append, List.map_cons] at hnodup
    have hfresh := (List.nodup_cons.1 (List.nodup_append.1 hnodup).2.1).1
    exact hfresh (List.mem_map.2 ⟨twin, htwin, hname⟩)
  · obtain ⟨other, hother, hwrite⟩ := List.mem_flatMap.1 hafter
    obtain ⟨twin, htwin, heq⟩ := target?_spaceChanges hwrite htarget
    have hnamesOther := h.hasFileNames other (by simp [hother])
    obtain ⟨hfolder, hname⟩ :=
      (placeOf_pieceFile_eq_iff hnames hpiece hnamesOther htwin disk.top directory).1 heq
    have hdeclares := hlater other hother hfolder.symm
    rw [hname, declares_of_mem_pieces htwin] at hdeclares
    cases hdeclares

/-! ## Whether the run succeeds -/

/-- Names and paths are short enough for files, and nothing stands in the way of them in a
directory. -/
structure Admits (disk : Disk) (directory : String) (spaces : List Namespace) : Prop where
  folder_fits : ∀ space ∈ spaces,
    Disk.isPath (spaceDirectory directory space) = true ∧ Disk.isName space.folder = true
  file_fits : ∀ space ∈ spaces, ∀ piece ∈ Listing.pieces space,
    Disk.isPath (pieceFile directory space piece) = true ∧
      Disk.isName (piece.name ++ ".txt") = true
  folder_free : ∀ space ∈ spaces,
    disk.get? (Disk.inside disk.top directory ++ [space.folder]) = none ∨
      disk.get? (Disk.inside disk.top directory ++ [space.folder]) = some .directory
  file_free : ∀ space ∈ spaces, ∀ piece ∈ Listing.pieces space,
    disk.get? (Disk.inside disk.top directory ++ [space.folder, piece.name ++ ".txt"])
      ≠ some .directory

/-- Making the directory of a namespace succeeds and leaves room for all files. -/
theorem exists_change_makeDirectory {spaces : List Namespace} {space : Namespace}
    {directory : String} {disk : Disk} (h : Writable spaces) (hspace : space ∈ spaces)
    (henters : disk.Enters directory) (hadmits : Admits disk directory spaces) :
    ∃ next, disk.change (.makeDirectory (spaceDirectory directory space)) = (next, none) ∧
      next.Enters directory ∧ next.Enters (spaceDirectory directory space) ∧
      Admits next directory spaces := by
  have hfolder := (h.hasFileNames space hspace).folder
  obtain ⟨hpath, hshort⟩ := hadmits.folder_fits space hspace
  obtain ⟨next, hnext, hget⟩ := Disk.change_makeDirectory henters hfolder hpath hshort
    (hadmits.folder_free space hspace)
  have hkeeps := Disk.keepsDirectories_change disk (.makeDirectory (spaceDirectory directory space))
  rw [spaceDirectory, ← Namespace.folder, hnext] at hkeeps
  have henters := henters.mono hkeeps
  refine ⟨next, hnext, henters, ?_, ⟨hadmits.folder_fits, hadmits.file_fits, ?_, ?_⟩⟩
  · apply henters.joinPath hfolder
    rw [hget, hkeeps.top_eq, if_pos rfl]
  · intro other hother
    rw [hget, hkeeps.top_eq]
    split
    · exact Or.inr rfl
    · exact hadmits.folder_free other hother
  · -- The new directory is one level above all files.
    intro other hother piece hpiece
    rw [hget, hkeeps.top_eq, if_neg (by simp)]
    exact hadmits.file_free other hother piece hpiece

/-- Writing the file of a type succeeds and leaves room for all others. -/
theorem exists_change_writeFile {spaces : List Namespace} {space : Namespace}
    {piece : Listing.Piece} {directory : String} {disk : Disk} (h : Writable spaces)
    (hspace : space ∈ spaces) (hpiece : piece ∈ Listing.pieces space)
    (henters : disk.Enters (spaceDirectory directory space))
    (hadmits : Admits disk directory spaces) :
    ∃ next, disk.change (.writeFile (pieceFile directory space piece) piece.text) = (next, none) ∧
      Admits next directory spaces := by
  have hnames := h.hasFileNames space hspace
  have hfile := isFileName_of_mem_pieces hnames hpiece
  obtain ⟨hpath, hshort⟩ := hadmits.file_fits space hspace piece hpiece
  have hinside : Disk.inside disk.top (spaceDirectory directory space)
      = Disk.inside disk.top directory ++ [space.folder] :=
    Disk.inside_joinPath hnames.folder disk.top directory
  have hfree := hadmits.file_free space hspace piece hpiece
  have hplace := placeOf_pieceFile hnames hpiece disk.top directory
  obtain ⟨next, hnext⟩ := Disk.change_writeFile henters hfile hpath hshort
    (by rw [hinside, List.append_assoc]; exact hfree) piece.text
  have hget := Disk.get?_change disk (.writeFile (pieceFile directory space piece) piece.text)
  have htop := Disk.top_change disk (.writeFile (pieceFile directory space piece) piece.text)
  rw [pieceFile, hnext] at hget htop
  refine ⟨next, hnext, ⟨hadmits.folder_fits, hadmits.file_fits, ?_, ?_⟩⟩
  · intro other hother
    rw [htop]
    rcases hget (Disk.inside disk.top directory ++ [other.folder]) with
      hsame | ⟨hnone, -⟩ | ⟨htarget, -⟩
    · rw [hsame]
      exact hadmits.folder_free other hother
    · cases hnone
    · -- Files are one level below the directories.
      have heq := hplace.symm.trans (Option.some.inj htarget)
      simp at heq
  · intro other hother twin htwin
    rw [htop]
    rcases hget (Disk.inside disk.top directory ++ [other.folder, twin.name ++ ".txt"]) with
      hsame | ⟨hnone, -⟩ | ⟨-, -, text, hput⟩
    · rw [hsame]
      exact hadmits.file_free other hother twin htwin
    · cases hnone
    · rw [hput]
      simp

/-- Writing the types of a namespace succeeds. -/
theorem exists_changeAll_spaceChanges {spaces : List Namespace} {space : Namespace}
    {directory : String} {disk : Disk} (h : Writable spaces) (hspace : space ∈ spaces)
    (henters : disk.Enters directory) (hadmits : Admits disk directory spaces) :
    ∃ last, disk.changeAll (spaceChanges directory space) = (last, none) ∧
      last.Enters directory ∧ Admits last directory spaces := by
  obtain ⟨made, hmade, henters, hspaceEnters, hadmits⟩ :=
    exists_change_makeDirectory h hspace henters hadmits
  have hwrites : ∃ last, made.changeAll ((Listing.pieces space).map fun piece =>
        .writeFile (pieceFile directory space piece) piece.text) = (last, none) ∧
      last.Enters directory ∧ last.Enters (spaceDirectory directory space) ∧
        Admits last directory spaces := by
    apply Disk.exists_changeAll (motive := fun disk => disk.Enters directory ∧
      disk.Enters (spaceDirectory directory space) ∧ Admits disk directory spaces) _
      ⟨henters, hspaceEnters, hadmits⟩
    rintro disk change hchange ⟨henters, hspaceEnters, hadmits⟩
    obtain ⟨piece, hpiece, rfl⟩ := List.mem_map.1 hchange
    obtain ⟨next, hnext, hadmits⟩ :=
      exists_change_writeFile h hspace hpiece hspaceEnters hadmits
    have hkeeps := Disk.keepsDirectories_change disk
      (.writeFile (pieceFile directory space piece) piece.text)
    rw [hnext] at hkeeps
    exact ⟨next, hnext, henters.mono hkeeps, hspaceEnters.mono hkeeps, hadmits⟩
  obtain ⟨last, hlast, henters, -, hadmits⟩ := hwrites
  exact ⟨last, Disk.changeAll_cons_eq_iff.2 ⟨made, hmade, hlast⟩, henters, hadmits⟩

/-- Writing the types of several namespaces succeeds. -/
theorem exists_changeAll_flatMap {spaces rest : List Namespace} {directory : String} {disk : Disk}
    (h : Writable spaces) (hrest : ∀ space ∈ rest, space ∈ spaces)
    (henters : disk.Enters directory) (hadmits : Admits disk directory spaces) :
    ∃ last, disk.changeAll (rest.flatMap (spaceChanges directory)) = (last, none) := by
  induction rest generalizing disk with
  | nil => exact ⟨disk, rfl⟩
  | cons space rest ih =>
    obtain ⟨next, hnext, henters, hadmits⟩ :=
      exists_changeAll_spaceChanges h (hrest space List.mem_cons_self) henters hadmits
    obtain ⟨last, hlast⟩ :=
      ih (fun other hother => hrest other (List.mem_cons_of_mem space hother)) henters hadmits
    refine ⟨last, ?_⟩
    rw [List.flatMap_cons]
    exact Disk.changeAll_append_eq_iff.2 ⟨next, hnext, hlast⟩

/-- The types of namespaces can be written below a directory that can be made, if nothing stands in
the way there. -/
theorem exists_changeAll_deliver {spaces : List Namespace} {directory : String} {disk made : Disk}
    (h : Writable spaces) (hmake : disk.makeDirectories (opened directory) = (made, true))
    (hadmits : Admits made directory spaces) :
    ∃ last, disk.changeAll (deliver spaces (.directory directory)).changes = (last, none) := by
  have hmade : ∃ last, made.changeAll (spaces.flatMap (spaceChanges directory)) = (last, none) :=
    exists_changeAll_flatMap h (fun _ hspace => hspace) (Disk.enters_of_makeDirectories hmake)
      hadmits
  rw [deliver]
  cases spaces with
  | nil => exact ⟨disk, rfl⟩
  | cons space rest =>
    -- The first change makes the directory, so it may as well be there from the start.
    have hfolder := (h.hasFileNames space List.mem_cons_self).folder
    have hpath := (hadmits.folder_fits space List.mem_cons_self).1
    have hfirst : disk.change (.makeDirectory (spaceDirectory directory space))
        = made.change (.makeDirectory (spaceDirectory directory space)) := by
      rw [Disk.change, Disk.change, spaceDirectory, ← Namespace.folder,
        Disk.makeDirectories_joinPath hmake hfolder hpath]
    rw [List.flatMap_cons, spaceChanges, List.cons_append, Disk.changeAll] at hmade ⊢
    rwa [hfirst]

/-! ## All types -/

/-- The file for a type of a namespace. -/
def typeFile (directory : String) (space : Namespace) (type : TypeDecl) : String :=
  joinPath (joinPath directory space.folder) (type.name ++ ".txt")

/-- The plan that writes the types of some fragments below a directory, one file each. -/
def typePlan (settings : Settings) (transformed : Bool) (directory : String)
    (fragments : List Namespace) : Plan :=
  deliver (delivered settings transformed fragments) (.directory directory)

theorem mem_pieces {space : Namespace} {type : TypeDecl} (h : type ∈ space.types) :
    { name := type.name, text := Listing.typeDecl type } ∈ Listing.pieces space := by
  rw [Listing.pieces]
  apply List.mem_map.2
  refine ⟨type, ?_, rfl⟩
  cases hsort : type.isEnum <;> simp [h, hsort]

/-- Without a clash every type can be read after the run. -/
theorem read?_typeFile {spaces : List Namespace} {directory : String} {disk last : Disk}
    (h : Writable spaces) (hclash : ¬ Clashes spaces) (hdevice : disk.HasNoDevice)
    (hrun : disk.changeAll (deliver spaces (.directory directory)).changes = (last, none))
    {space : Namespace} (hspace : space ∈ spaces) {type : TypeDecl} (htype : type ∈ space.types) :
    last.read? (typeFile directory space type) = some (Listing.typeDecl type) := by
  obtain ⟨before, after, rfl⟩ := List.append_of_mem hspace
  have hpiece := mem_pieces htype
  apply read?_pieceFile h hpiece hdevice hrun
  intro other hother hfolder
  rw [Bool.eq_false_iff]
  intro hdeclares
  have hne := h.name_ne_of_mem_rest hother
  apply hclash
  exact clashes_of_folder_eq hspace (by simp [hother]) hne hfolder.symm
    (declares_of_mem_pieces hpiece) hdeclares

/-- In a clash only the type of the later namespace can be read after the run. -/
theorem read?_typeFile_of_clash {spaces : List Namespace} {directory : String} {disk last : Disk}
    (h : Writable spaces) (hdevice : disk.HasNoDevice)
    (hrun : disk.changeAll (deliver spaces (.directory directory)).changes = (last, none))
    {one other : Namespace} (horder : [one, other].Sublist spaces)
    (hfolder : one.folder = other.folder) {type twin : TypeDecl} (htwin : twin ∈ other.types)
    (hname : type.name = twin.name) :
    last.read? (typeFile directory one type) = some (Listing.typeDecl twin) := by
  obtain ⟨front, rest, rfl, hone, hother⟩ := List.cons_sublist_iff.1 horder
  obtain ⟨between, after, rfl⟩ := List.append_of_mem (List.singleton_sublist.1 hother)
  have hfile : typeFile directory one type = typeFile directory other twin := by
    rw [typeFile, typeFile, hfolder, hname]
  rw [← List.append_assoc] at h hrun
  rw [hfile]
  apply read?_pieceFile h (mem_pieces htwin) hdevice hrun
  -- A third namespace with the same directory would have the name of one of the two.
  intro third hthird hthirdFolder
  have hne := h.name_ne_of_mem_rest hthird
  rw [List.append_assoc] at h
  have hotherNe := h.name_ne hone (List.mem_append_right between List.mem_cons_self)
  have hthirdNe := h.name_ne hone
    (List.mem_append_right between (List.mem_cons_of_mem other hthird))
  exact absurd (Namespace.name_eq_of_folder_eq hfolder (hfolder.trans hthirdFolder.symm) hotherNe
    hthirdNe) hne

/-- The types of fragments are written to different files if and only if the namespace without a
name and the namespace `_` share no type. Then every type can be read after the run; else the later
of the two takes the file of a shared type, and the text of the earlier is lost. The run succeeds if
the directory can be made and nothing stands in the way below it, and it is what transpiling comes
to. -/
theorem types_written {fragments : List Namespace}
    (hnames : ∀ fragment ∈ fragments, fragment.HasFileNames) (settings : Settings)
    (transformed : Bool) (directory : String) :
    ((typePlan settings transformed directory fragments).files.Nodup ↔ ¬ Clashes fragments) ∧
      (∀ disk last : Disk, disk.HasNoDevice →
        disk.changeAll (typePlan settings transformed directory fragments).changes = (last, none) →
        (¬ Clashes fragments → ∀ space ∈ delivered settings transformed fragments,
          ∀ type ∈ space.types,
            last.read? (typeFile directory space type) = some (Listing.typeDecl type)) ∧
          ∀ one other, [one, other].Sublist (delivered settings transformed fragments) →
            one.folder = other.folder →
            ∀ type ∈ one.types, ∀ twin ∈ other.types, type.name = twin.name →
              last.read? (typeFile directory one type) = some (Listing.typeDecl twin)) ∧
      (∀ disk made : Disk, disk.makeDirectories (opened directory) = (made, true) →
        Admits made directory (delivered settings transformed fragments) →
        ∃ last, disk.changeAll (typePlan settings transformed directory fragments).changes
          = (last, none)) ∧
      ∀ workers source input options, (transpileSettings source options).result = .ok settings →
        (mergedInput workers source input options.jobs).result = .ok (merge fragments) →
        options.space = none → options.transform = transformed →
        options.destination = .directory directory →
        (planTranspile workers source input options).result
          = .ok (typePlan settings transformed directory fragments) := by
  have hwritable := writable_delivered hnames settings transformed
  refine ⟨?_, ?_, ?_, ?_⟩
  · rw [typePlan, nodup_files_iff hwritable, clashes_delivered_iff]
  · intro disk last hdevice hrun
    constructor
    · intro hclash space hspace type htype
      rw [← clashes_delivered_iff] at hclash
      exact read?_typeFile hwritable hclash hdevice hrun hspace htype
    · intro one other horder hfolder type _ twin htwin hname
      exact read?_typeFile_of_clash hwritable hdevice hrun horder hfolder htwin hname
  · intro disk made hmake hadmits
    exact exists_changeAll_deliver hwritable hmake hadmits
  · rintro workers source input options hsettings hmerged hspace rfl hdestination
    have hselect : select (merge fragments) options.space = .ok (merge fragments).namespaces := by
      rw [hspace]
      rfl
    rw [result_planTranspile hsettings hmerged hselect, hdestination]
    rfl

/-- A class outside of all namespaces, and another one in the namespace `_`. -/
def neighbours : List Namespace :=
  [{ types := [.ofClass { name := "A" }] },
    { name := some "_", types := [.ofClass { name := "B" }] }]

/-- The two classes can be written below the top and below the root. -/
theorem types_written_neighbours :
    (∀ fragment ∈ neighbours, fragment.HasFileNames) ∧ ¬ Clashes neighbours ∧
      (∃ last, ({} : Disk).changeAll (typePlan {} true "o" neighbours).changes = (last, none) ∧
        last.read? "o/_/A.txt" = some (Listing.typeDecl (.ofClass { name := "A" })) ∧
        last.read? "o/_/B.txt" = some (Listing.typeDecl (.ofClass { name := "B" }))) ∧
      ∃ last, ({ top := ["home"] } : Disk).changeAll (typePlan {} true "/o" neighbours).changes
          = (last, none) ∧
        last.read? "/o/_/A.txt" = some (Listing.typeDecl (.ofClass { name := "A" })) ∧
        last.read? "/o/_/B.txt" = some (Listing.typeDecl (.ofClass { name := "B" })) := by
  have hnames : ∀ fragment ∈ neighbours, fragment.HasFileNames := by decide
  have hclash : ¬ Clashes neighbours := by decide
  have hdelivered : delivered {} true neighbours = neighbours := by rfl
  have hwritten : ∀ {disk made : Disk} {directory : String}, disk.HasNoDevice →
      disk.makeDirectories (opened directory) = (made, true) → Admits made directory neighbours →
      ∃ last, disk.changeAll (typePlan {} true directory neighbours).changes = (last, none) ∧
        last.read? (joinPath (joinPath directory "_") "A.txt")
          = some (Listing.typeDecl (.ofClass { name := "A" })) ∧
        last.read? (joinPath (joinPath directory "_") "B.txt")
          = some (Listing.typeDecl (.ofClass { name := "B" })) := by
    intro disk made directory hdevice hmake hadmits
    obtain ⟨-, hread, hrun, -⟩ := types_written hnames {} true directory
    rw [hdelivered] at hread hrun
    obtain ⟨last, hlast⟩ := hrun _ _ hmake hadmits
    have hread := (hread disk last hdevice hlast).1 hclash
    refine ⟨last, hlast, ?_, ?_⟩
    · exact hread _ List.mem_cons_self (.ofClass { name := "A" }) (by decide)
    · exact hread _ (List.mem_cons_of_mem _ List.mem_cons_self) (.ofClass { name := "B" })
        (by decide)
  have hbelow : Admits { entries := [(["o"], .directory)] } "o" neighbours := by
    constructor
    all_goals decide
  have hrooted : Admits { top := ["home"], entries := [(["o"], .directory)] } "/o" neighbours := by
    constructor
    all_goals decide
  exact ⟨hnames, hclash, hwritten (by decide) (by rfl) hbelow,
    hwritten (by decide) (by rfl) hrooted⟩

/-- Two classes of one name, one outside of all namespaces, and one with a field in the namespace
`_`. -/
def lookalikes : List Namespace :=
  [{ types := [.ofClass { name := "A" }] },
    { name := some "_"
      types := [.ofClass {
        name := "A"
        fields := [{ entity := { type := "int", name := "second" } }] }] }]

/-- A run that succeeds can lose a type. -/
theorem read?_lookalikes :
    (∀ fragment ∈ lookalikes, fragment.HasFileNames) ∧
      ¬ (typePlan {} true "o" lookalikes).files.Nodup ∧
      ∃ last, ({} : Disk).changeAll (typePlan {} true "o" lookalikes).changes = (last, none) ∧
        ∃ space ∈ delivered {} true lookalikes, ∃ type ∈ space.types,
          last.read? (typeFile "o" space type) ≠ some (Listing.typeDecl type) := by
  refine ⟨by decide, by decide, _, rfl, { types := [.ofClass { name := "A" }] }, ?_,
    .ofClass { name := "A" }, ?_, ?_⟩
  · decide
  · decide
  · decide

end Command

end Recast
