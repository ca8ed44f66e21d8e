import Recast.Command.Plan
import Recast.Proofs.Keyed
import Recast.Proofs.Places

/-!
# What changes of the files leave as it was

A change makes directories or writes one file. What stands at a place after it is what stood there
before, or a directory where nothing was, or the text of a file where no directory was
(`Disk.get?_change`), and everything about a run of changes follows from that. Directories stay, so
a path that led to its place once leads there for good (`Disk.KeepsDirectories`), and a text stays
until another one is put in its place. Hence what was written can be read in the end, if nothing was
written to the same place later (`Disk.read?_of_changeAll`).

The null device takes any text and keeps none. That a disk has no other such file
(`Disk.HasNoDevice`) is assumed where texts are to be read again.

The last part says when changes succeed: where a directory can be entered and nothing is in the way,
a directory is made in it and a file is written.
-/

set_option autoImplicit false

namespace Recast.Command

namespace Disk

/-! ## Looking up and putting -/

/-- The entries of a disk are kept by their places. -/
theorem entries_put (disk : Disk) (place : Place) (entry : Entry) :
    (disk.put place entry).entries = Keyed.put Prod.fst disk.entries (place, entry) := by
  rw [put, Keyed.put]
  split <;> rfl

theorem lookup_eq_find? (entries : List (Place × Entry)) (place : Place) :
    entries.lookup place = (entries.find? fun old => old.1 = place).map Prod.snd := by
  induction entries with
  | nil => rfl
  | cons old entries ih =>
    rw [List.lookup_cons, ih]
    by_cases h : old.1 = place
    · simp [h]
    · have hne : (place == old.1) = false := by simpa using Ne.symm h
      simp [h, hne]

theorem mem_of_lookup {entries : List (Place × Entry)} {place : Place} {entry : Entry}
    (h : entries.lookup place = some entry) : (place, entry) ∈ entries := by
  rw [lookup_eq_find?] at h
  obtain ⟨found, hfound, rfl⟩ := Option.map_eq_some_iff.1 h
  have hplace : found.1 = place := by simpa using List.find?_some hfound
  rw [← hplace]
  exact List.mem_of_find?_eq_some hfound

@[simp]
theorem top_put (disk : Disk) (place : Place) (entry : Entry) :
    (disk.put place entry).top = disk.top := by
  rw [put]
  split <;> rfl

/-- Where something can be put, it is found from then on, and the rest is as it was. -/
theorem get?_put {disk : Disk} {place : Place} (h : disk.get? place ≠ some .directory)
    (entry : Entry) (other : Place) :
    (disk.put place entry).get? other = if other = place then some entry else disk.get? other := by
  have hlookup : (disk.put place entry).entries.lookup other
      = if place = other then some entry else disk.entries.lookup other := by
    rw [entries_put, lookup_eq_find?, lookup_eq_find?, Keyed.find?_put]
    split <;> rfl
  -- The places from the top upward are directories for good.
  have habove : disk.isAbove place = false := by
    rw [Bool.eq_false_iff]
    intro habove
    exact h (by rw [get?, if_pos habove])
  rw [get?, get?, hlookup, isAbove, top_put, ← isAbove]
  by_cases heq : other = place
  · subst heq
    simp [habove]
  · simp [heq, Ne.symm heq]

/-! ## Walking -/

/-- A walk that succeeds leads where the parts lead. -/
theorem eq_foldl_of_walk? {disk : Disk} {parts : List String} {place reached : Place}
    (h : disk.walk? place parts = some reached) : reached = parts.foldl follow place := by
  induction parts generalizing place with
  | nil => exact (Option.some.inj h).symm
  | cons part parts ih =>
    rw [walk?] at h
    split at h
    · exact ih h
    · cases h

theorem walk?_append (disk : Disk) (place : Place) (front rest : List String) :
    disk.walk? place (front ++ rest) = (disk.walk? place front).bind (disk.walk? · rest) := by
  induction front generalizing place with
  | nil => rfl
  | cons part front ih =>
    rw [List.cons_append, walk?, walk?]
    split
    · exact ih _
    · rfl

/-- Some disk has the top and all directories of another one. -/
structure KeepsDirectories (disk next : Disk) : Prop where
  top_eq : next.top = disk.top
  get?_eq : ∀ place, disk.get? place = some .directory → next.get? place = some .directory

theorem KeepsDirectories.trans {disk next last : Disk} (hnext : disk.KeepsDirectories next)
    (hlast : next.KeepsDirectories last) : disk.KeepsDirectories last where
  top_eq := hlast.top_eq.trans hnext.top_eq
  get?_eq place hdirectory := hlast.get?_eq place (hnext.get?_eq place hdirectory)

/-- A walk that succeeded once succeeds for good. -/
theorem KeepsDirectories.walk? {disk next : Disk} (h : disk.KeepsDirectories next)
    {parts : List String} {place reached : Place} (hwalk : disk.walk? place parts = some reached) :
    next.walk? place parts = some reached := by
  induction parts generalizing place with
  | nil => exact hwalk
  | cons part parts ih =>
    rw [Disk.walk?] at hwalk ⊢
    split at hwalk
    next hdirectory =>
      rw [if_pos (h.get?_eq _ hdirectory)]
      exact ih hwalk
    next => cases hwalk

theorem exists_partsOf_eq (path : String) : ∃ front last, partsOf path = front ++ [last] := by
  have hne : partsOf path ≠ [] := by
    rw [partsOf, ne_eq, List.map_eq_nil_iff]
    exact pathParts_ne_nil path.toList
  exact ⟨_, _, (List.dropLast_concat_getLast hne).symm⟩

/-- A path names a place if the parts in front of the last one lead through directories. -/
theorem locate?_eq_some_iff {disk : Disk} {path last : String} {front : List String} {place : Place}
    (hparts : partsOf path = front ++ [last]) :
    disk.locate? path = some place ↔
      isPath path = true ∧ isName last = true ∧
        ∃ directory, disk.walk? (start disk.top path) front = some directory ∧
          follow directory last = place := by
  rw [locate?, parts?_eq, hparts]
  by_cases hpath : isPath path
  · cases hwalk : disk.walk? (start disk.top path) front <;> by_cases hlast : isName last <;>
      simp [hpath, hwalk, hlast]
  · simp [hpath]

/-- The place that a path names does not depend on what stands there. -/
theorem eq_placeOf_of_locate? {disk : Disk} {path : String} {place : Place}
    (h : disk.locate? path = some place) : place = placeOf disk.top path := by
  obtain ⟨front, last, hparts⟩ := exists_partsOf_eq path
  obtain ⟨-, -, directory, hwalk, hplace⟩ := (locate?_eq_some_iff hparts).1 h
  rw [← hplace, placeOf, hparts, List.foldl_append, ← eq_foldl_of_walk? hwalk]
  rfl

theorem KeepsDirectories.locate? {disk next : Disk} (h : disk.KeepsDirectories next)
    {path : String} {place : Place} (hlocate : disk.locate? path = some place) :
    next.locate? path = some place := by
  obtain ⟨front, last, hparts⟩ := exists_partsOf_eq path
  obtain ⟨hpath, hlast, directory, hwalk, hplace⟩ := (locate?_eq_some_iff hparts).1 hlocate
  rw [← h.top_eq] at hwalk
  exact (locate?_eq_some_iff hparts).2 ⟨hpath, hlast, directory, h.walk? hwalk, hplace⟩

/-! ## One change -/

/-- Some disk differs from another one only by directories where nothing stood. -/
structure OnlyMakes (disk next : Disk) : Prop where
  top_eq : next.top = disk.top
  get?_eq_or : ∀ place, next.get? place = disk.get? place ∨
    disk.get? place = none ∧ next.get? place = some .directory

theorem OnlyMakes.refl (disk : Disk) : disk.OnlyMakes disk :=
  ⟨rfl, fun _ => Or.inl rfl⟩

theorem OnlyMakes.trans {disk next last : Disk} (hnext : disk.OnlyMakes next)
    (hlast : next.OnlyMakes last) : disk.OnlyMakes last := by
  refine ⟨hlast.top_eq.trans hnext.top_eq, ?_⟩
  intro place
  rcases hnext.get?_eq_or place with hsame | ⟨hnone, hmade⟩
  · rw [← hsame]
    exact hlast.get?_eq_or place
  · -- What is a directory by now can only stay one.
    rcases hlast.get?_eq_or place with hsame | ⟨habsent, -⟩
    · exact Or.inr ⟨hnone, hsame.trans hmade⟩
    · rw [hmade] at habsent
      cases habsent

theorem onlyMakes_put {disk : Disk} {place : Place} (hnone : disk.get? place = none) :
    disk.OnlyMakes (disk.put place .directory) := by
  have hne : disk.get? place ≠ some .directory := by simp [hnone]
  refine ⟨top_put disk place .directory, ?_⟩
  intro other
  rw [get?_put hne]
  split
  next heq => exact Or.inr ⟨heq ▸ hnone, rfl⟩
  next => exact Or.inl rfl

/-- Whether it succeeds or not, making directories does nothing else. -/
theorem onlyMakes_makeParts (disk : Disk) (place : Place) (parts : List String) :
    disk.OnlyMakes (disk.makeParts place parts).1 := by
  induction parts generalizing disk place with
  | nil => exact OnlyMakes.refl disk
  | cons part parts ih =>
    simp only [makeParts]
    split
    next => exact ih disk _
    next => exact OnlyMakes.refl disk
    next hnone =>
      split
      · exact (onlyMakes_put hnone).trans (ih _ _)
      · exact OnlyMakes.refl disk

theorem makeDirectories_eq (disk : Disk) (path : String) :
    disk.makeDirectories path
      = if path = "" then (disk, true)
        else if isPath path then disk.makeParts (start disk.top path) (partsOf path)
        else (disk, false) := by
  rw [makeDirectories, parts?_eq]
  cases isPath path <;> rfl

theorem onlyMakes_makeDirectories (disk : Disk) (path : String) :
    disk.OnlyMakes (disk.makeDirectories path).1 := by
  rw [makeDirectories_eq]
  split
  · exact OnlyMakes.refl disk
  · split
    · exact onlyMakes_makeParts disk _ _
    · exact OnlyMakes.refl disk

/-- A text is written to the place that its path names, or nowhere if a device stands there. -/
theorem write?_eq_some_iff {disk next : Disk} {path text : String} :
    disk.write? path text = some next ↔
      disk.locate? path = some (placeOf disk.top path) ∧
        (disk.get? (placeOf disk.top path) = some .null ∧ disk = next ∨
          disk.get? (placeOf disk.top path) ≠ some .directory ∧
            disk.get? (placeOf disk.top path) ≠ some .null ∧
            disk.put (placeOf disk.top path) (.file (some text)) = next) := by
  rw [write?]
  cases hlocate : disk.locate? path with
  | none => simp
  | some place =>
    obtain rfl := eq_placeOf_of_locate? hlocate
    cases hentry : disk.get? (placeOf disk.top path) with
    | none => simp [hentry]
    | some entry => cases entry <;> simp [hentry]

end Disk

/-- The place where a change puts a text. -/
def Change.target? (top : Place) : Change → Option Place
  | .makeDirectory _ => none
  | .writeFile path _ => some (Disk.placeOf top path)

namespace Disk

@[simp]
theorem top_change (disk : Disk) (change : Change) : (disk.change change).1.top = disk.top := by
  cases change with
  | makeDirectory path => exact (onlyMakes_makeDirectories disk path).top_eq
  | writeFile path text =>
    rw [Disk.change]
    split
    next next hwrite =>
      obtain ⟨-, hdevice | ⟨-, -, hput⟩⟩ := write?_eq_some_iff.1 hwrite
      · rw [hdevice.2]
      · rw [← hput, top_put]
    next => rfl

/-- After a change there is at a place what was there, or a directory where nothing was, or a text
where no directory was. -/
theorem get?_change (disk : Disk) (change : Change) (place : Place) :
    (disk.change change).1.get? place = disk.get? place ∨
      change.target? disk.top = none ∧ disk.get? place = none ∧
        (disk.change change).1.get? place = some .directory ∨
      change.target? disk.top = some place ∧ disk.get? place ≠ some .directory ∧
        ∃ text, (disk.change change).1.get? place = some (.file (some text)) := by
  cases change with
  | makeDirectory path =>
    rcases (onlyMakes_makeDirectories disk path).get?_eq_or place with hsame | hmade
    · exact Or.inl hsame
    · exact Or.inr (Or.inl ⟨rfl, hmade⟩)
  | writeFile path text =>
    rw [Disk.change]
    split
    next next hwrite =>
      obtain ⟨-, hdevice | ⟨hdirectory, -, hput⟩⟩ := write?_eq_some_iff.1 hwrite
      · rw [hdevice.2]
        exact Or.inl rfl
      · have hget := get?_put hdirectory (.file (some text)) place
        rw [hput] at hget
        by_cases hplace : place = placeOf disk.top path
        · subst hplace
          rw [if_pos rfl] at hget
          exact Or.inr (Or.inr ⟨rfl, hdirectory, text, hget⟩)
        · rw [if_neg hplace] at hget
          exact Or.inl hget
    next => exact Or.inl rfl

/-- Directories stay directories. -/
theorem get?_change_directory {disk : Disk} {place : Place}
    (h : disk.get? place = some .directory) (change : Change) :
    (disk.change change).1.get? place = some .directory := by
  rcases get?_change disk change place with hsame | ⟨-, hnone, -⟩ | ⟨-, hdirectory, -⟩
  · rw [hsame, h]
  · rw [h] at hnone
    cases hnone
  · exact absurd h hdirectory

/-- A text stays where it is until another one is put there. -/
theorem get?_change_file {disk : Disk} {place : Place} {text : String} {change : Change}
    (h : disk.get? place = some (.file (some text)))
    (htarget : change.target? disk.top ≠ some place) :
    (disk.change change).1.get? place = some (.file (some text)) := by
  rcases get?_change disk change place with hsame | ⟨-, hnone, -⟩ | ⟨hplace, -⟩
  · rw [hsame, h]
  · rw [h] at hnone
    cases hnone
  · exact absurd hplace htarget

/-- The place of the null device. -/
def nullDevice : Place :=
  ["dev", "null"]

/-- No file is one that is always empty, but for the null device of every system. -/
def HasNoDevice (disk : Disk) : Prop :=
  ∀ old ∈ disk.entries, old.2 ≠ .null

instance (disk : Disk) : Decidable disk.HasNoDevice :=
  inferInstanceAs (Decidable (∀ old ∈ disk.entries, old.2 ≠ .null))

/-- Files that are always empty stand nowhere but at the null device. -/
def OnlyNullDevice (disk : Disk) : Prop :=
  ∀ place, disk.get? place = some .null → place = nullDevice

theorem HasNoDevice.onlyNullDevice {disk : Disk} (h : disk.HasNoDevice) : disk.OnlyNullDevice := by
  intro place hnull
  rw [get?] at hnull
  split at hnull
  · cases hnull
  · rcases Option.or_eq_some_iff.1 hnull with hnull | ⟨-, hnull⟩
    · exact absurd rfl (h _ (mem_of_lookup hnull))
    · -- Of the places in every system only one has such a file.
      have hknown : ∀ old ∈ system, old.2 = .null → old.1 = nullDevice := by decide
      exact hknown _ (mem_of_lookup hnull) rfl

theorem OnlyNullDevice.change {disk : Disk} (h : disk.OnlyNullDevice) (change : Change) :
    (disk.change change).1.OnlyNullDevice := by
  intro place hnull
  rcases get?_change disk change place with hsame | ⟨-, -, hmade⟩ | ⟨-, -, text, hput⟩
  · exact h place (hsame ▸ hnull)
  · rw [hmade] at hnull
    cases hnull
  · rw [hput] at hnull
    cases hnull

/-! ## A run of changes -/

/-- What each change keeps is kept by all, also if one of them fails. -/
theorem changeAll_keeps {motive : Disk → Prop} {changes : List Change}
    (hstep : ∀ disk, ∀ change ∈ changes, motive disk → motive (disk.change change).1)
    {disk : Disk} (h : motive disk) : motive (disk.changeAll changes).1 := by
  induction changes generalizing disk with
  | nil => exact h
  | cons change changes ih =>
    have hnext := hstep disk change List.mem_cons_self h
    rw [changeAll]
    split
    next next hchange =>
      rw [hchange] at hnext
      apply ih _ hnext
      intro disk later hlater
      exact hstep disk later (List.mem_cons_of_mem change hlater)
    next next failure hchange =>
      rw [hchange] at hnext
      exact hnext

theorem keepsDirectories_change (disk : Disk) (change : Change) :
    disk.KeepsDirectories (disk.change change).1 where
  top_eq := top_change disk change
  get?_eq _ hdirectory := get?_change_directory hdirectory change

theorem keepsDirectories_changeAll (disk : Disk) (changes : List Change) :
    disk.KeepsDirectories (disk.changeAll changes).1 := by
  apply changeAll_keeps (motive := disk.KeepsDirectories) _ ⟨rfl, fun _ hplace => hplace⟩
  intro next change _ hkeeps
  exact hkeeps.trans (keepsDirectories_change next change)

theorem get?_changeAll_file {disk : Disk} {place : Place} {text : String} {changes : List Change}
    (h : disk.get? place = some (.file (some text)))
    (htarget : ∀ change ∈ changes, change.target? disk.top ≠ some place) :
    (disk.changeAll changes).1.get? place = some (.file (some text)) := by
  refine (changeAll_keeps (motive := fun next => next.top = disk.top ∧
    next.get? place = some (.file (some text))) ?_ ⟨rfl, h⟩).2
  rintro next change hchange ⟨htop, hfile⟩
  refine ⟨(top_change next change).trans htop, get?_change_file hfile ?_⟩
  rw [htop]
  exact htarget change hchange

theorem OnlyNullDevice.changeAll {disk : Disk} (h : disk.OnlyNullDevice) (changes : List Change) :
    (disk.changeAll changes).1.OnlyNullDevice := by
  apply changeAll_keeps (motive := OnlyNullDevice) _ h
  intro disk change _ hdisk
  exact hdisk.change change

/-- Changes succeed if each of them succeeds wherever the ones before can lead. -/
theorem exists_changeAll {motive : Disk → Prop} {changes : List Change}
    (hstep : ∀ disk, ∀ change ∈ changes, motive disk →
      ∃ next, disk.change change = (next, none) ∧ motive next)
    {disk : Disk} (h : motive disk) :
    ∃ last, disk.changeAll changes = (last, none) ∧ motive last := by
  induction changes generalizing disk with
  | nil => exact ⟨disk, rfl, h⟩
  | cons change changes ih =>
    obtain ⟨next, hnext, hmotive⟩ := hstep disk change List.mem_cons_self h
    rw [changeAll, hnext]
    apply ih _ hmotive
    intro disk later hlater
    exact hstep disk later (List.mem_cons_of_mem change hlater)

/-- Changes succeed if they succeed one after the other. -/
theorem changeAll_append_eq_iff {disk last : Disk} {front rest : List Change} :
    disk.changeAll (front ++ rest) = (last, none) ↔
      ∃ next, disk.changeAll front = (next, none) ∧ next.changeAll rest = (last, none) := by
  induction front generalizing disk with
  | nil => simp [changeAll]
  | cons change front ih =>
    rw [List.cons_append, changeAll, changeAll]
    split
    · exact ih
    · simp

theorem changeAll_cons_eq_iff {disk last : Disk} {change : Change} {rest : List Change} :
    disk.changeAll (change :: rest) = (last, none) ↔
      ∃ next, disk.change change = (next, none) ∧ next.changeAll rest = (last, none) := by
  rw [changeAll]
  split
  next next hchange => simp [hchange]
  next next failure hchange => simp [hchange]

/-- A text that is written where no device stands can be found there. -/
theorem get?_of_change_writeFile {disk next : Disk} {path text : String}
    (hdevice : disk.get? (placeOf disk.top path) ≠ some .null)
    (h : disk.change (.writeFile path text) = (next, none)) :
    disk.locate? path = some (placeOf disk.top path) ∧
      next.get? (placeOf disk.top path) = some (.file (some text)) := by
  rw [change] at h
  split at h
  next written hwrite =>
    obtain ⟨rfl, -⟩ := Prod.mk.inj h
    obtain ⟨hlocate, hnull | ⟨hdirectory, -, hput⟩⟩ := write?_eq_some_iff.1 hwrite
    · exact absurd hnull.1 hdevice
    · refine ⟨hlocate, ?_⟩
      rw [← hput, get?_put hdirectory, if_pos rfl]
  next => simp at h

/-- A text that was written and not overwritten later can be read in the end. -/
theorem read?_of_changeAll {disk last : Disk} {earlier later : List Change} {path text : String}
    (hdevice : disk.HasNoDevice) (hpath : placeOf disk.top path ≠ nullDevice)
    (hrun : disk.changeAll (earlier ++ .writeFile path text :: later) = (last, none))
    (hlater : ∀ change ∈ later, change.target? disk.top ≠ some (placeOf disk.top path)) :
    last.read? path = some text := by
  obtain ⟨before, hbefore, hrest⟩ := changeAll_append_eq_iff.1 hrun
  obtain ⟨written, hwritten, hlast⟩ := changeAll_cons_eq_iff.1 hrest
  have htop := (keepsDirectories_changeAll disk earlier).top_eq
  rw [hbefore] at htop
  have hnull : before.get? (placeOf before.top path) ≠ some .null := by
    intro hnull
    have hkept := hdevice.onlyNullDevice.changeAll earlier
    rw [hbefore] at hkept
    exact hpath (htop ▸ hkept _ hnull)
  obtain ⟨hlocate, htext⟩ := get?_of_change_writeFile hnull hwritten
  -- The directories on the way are still there, and so is the text.
  have hkeeps := keepsDirectories_changeAll before (.writeFile path text :: later)
  rw [hrest] at hkeeps
  have hwrittenTop := top_change before (.writeFile path text)
  rw [hwritten] at hwrittenTop
  rw [← htop, ← hwrittenTop] at hlater
  rw [← hwrittenTop] at htext
  have hkept := get?_changeAll_file htext hlater
  rw [hlast, hwrittenTop] at hkept
  rw [read?, hkeeps.locate? hlocate, Option.bind_eq_bind, Option.bind_some, hkept]

/-! ## Making directories and writing into them -/

theorem OnlyMakes.keepsDirectories {disk next : Disk} (h : disk.OnlyMakes next) :
    disk.KeepsDirectories next := by
  refine ⟨h.top_eq, ?_⟩
  intro place hdirectory
  rcases h.get?_eq_or place with hsame | ⟨-, hmade⟩
  · rw [hsame, hdirectory]
  · exact hmade

/-- A path begins at a directory that is always there. -/
theorem get?_start (disk : Disk) (path : String) :
    disk.get? (start disk.top path) = some .directory := by
  rw [get?, if_pos]
  rw [isAbove, start]
  split <;> simp

/-- A directory can be entered: all directories that lead to it are there, and so is it. -/
def Enters (disk : Disk) (directory : String) : Prop :=
  disk.walk? (start disk.top (opened directory)) (leading directory)
    = some (inside disk.top directory)

theorem Enters.mono {disk next : Disk} {directory : String} (h : disk.Enters directory)
    (hkeeps : disk.KeepsDirectories next) : next.Enters directory := by
  rw [Enters, hkeeps.top_eq]
  exact hkeeps.walk? h

theorem Enters.joinPath {disk : Disk} {directory name : String} (h : disk.Enters directory)
    (hname : IsFileName name)
    (hdirectory : disk.get? (inside disk.top directory ++ [name]) = some .directory) :
    disk.Enters (joinPath directory name) := by
  rw [Enters, start_opened_joinPath hname, leading_joinPath hname, inside_joinPath hname,
    walk?_append, h, Option.bind_some, walk?, follow_of_isFileName hname, if_pos hdirectory, walk?]

theorem locate?_joinPath {disk : Disk} {directory name : String} (h : disk.Enters directory)
    (hname : IsFileName name) (hpath : isPath (joinPath directory name) = true)
    (hshort : isName name = true) :
    disk.locate? (joinPath directory name) = some (inside disk.top directory ++ [name]) := by
  rw [locate?_eq_some_iff (partsOf_joinPath hname directory), start_joinPath hname]
  exact ⟨hpath, hshort, inside disk.top directory, h, follow_of_isFileName hname _⟩

/-- Directories are made part by part: the one behind the first part is there, or it is made. -/
theorem exists_of_makeParts_cons {disk made : Disk} {place : Place} {part : String}
    {parts : List String} (h : disk.makeParts place (part :: parts) = (made, true)) :
    ∃ next, next.makeParts (follow place part) parts = (made, true) ∧
      next.get? (follow place part) = some .directory ∧
      (next = disk ∨
        disk.get? (follow place part) = none ∧ isName part = true ∧
          next = disk.put (follow place part) .directory) := by
  simp only [makeParts] at h
  split at h
  next hdirectory => exact ⟨disk, h, hdirectory, Or.inl rfl⟩
  next => simp at h
  next hnone =>
    split at h
    next hfree =>
      rw [Bool.and_eq_true] at hfree
      have hne : disk.get? (follow place part) ≠ some .directory := by simp [hnone]
      refine ⟨_, h, ?_, Or.inr ⟨hnone, hfree.1, rfl⟩⟩
      rw [get?_put hne, if_pos rfl]
    next => simp at h

theorem get?_of_makeParts {disk made : Disk} {place other : Place} {parts : List String}
    (h : disk.makeParts place parts = (made, true)) (hother : disk.get? other = some .directory) :
    made.get? other = some .directory := by
  have hkeeps := (onlyMakes_makeParts disk place parts).keepsDirectories
  rw [h] at hkeeps
  exact hkeeps.get?_eq other hother

/-- What was made can be walked through. -/
theorem walk?_of_makeParts {disk made : Disk} {place : Place} {parts : List String}
    (h : disk.makeParts place parts = (made, true)) :
    made.walk? place parts = some (parts.foldl follow place) := by
  induction parts generalizing disk place with
  | nil => rfl
  | cons part parts ih =>
    obtain ⟨next, hmade, hnext, -⟩ := exists_of_makeParts_cons h
    rw [walk?, if_pos (get?_of_makeParts hmade hnext), ih hmade, List.foldl_cons]

/-- Where directories are there already, none is made. -/
theorem makeParts_of_walk? {disk : Disk} {place reached : Place} {front : List String}
    (h : disk.walk? place front = some reached) (rest : List String) :
    disk.makeParts place (front ++ rest) = disk.makeParts reached rest := by
  induction front generalizing place with
  | nil =>
    obtain rfl := Option.some.inj h
    rfl
  | cons part front ih =>
    rw [walk?] at h
    split at h
    next hdirectory =>
      simp only [List.cons_append, makeParts, hdirectory]
      exact ih h
    next => cases h

theorem isPointTail_concat {name : String} (h : IsFileName name) (front : List String) :
    isPointTail (front ++ [name]) = false := by
  simp [isPointTail, staysPut, h.ne_empty, h.ne_point]

/-- Where directories can be made, they are made in front of a name as well. -/
theorem makeParts_concat {disk made : Disk} {place : Place} {front : List String} {name : String}
    (hname : IsFileName name) (hplace : disk.get? place = some .directory)
    (h : disk.makeParts place (front ++ [""]) = (made, true)) :
    disk.makeParts place (front ++ [name]) = made.makeParts place (front ++ [name]) := by
  induction front generalizing disk place with
  | nil =>
    have hstay : follow place "" = place := rfl
    simp only [List.nil_append, makeParts, hstay, hplace, Prod.mk.injEq, and_true] at h
    rw [h]
  | cons part front ih =>
    obtain ⟨next, hmade, hnext, hfirst⟩ := exists_of_makeParts_cons h
    -- From the directory behind the first part on, the two runs are the same.
    have hmadeRun : made.makeParts place (part :: front ++ [name])
        = made.makeParts (follow place part) (front ++ [name]) := by
      simp only [List.cons_append, makeParts, get?_of_makeParts hmade hnext]
    rw [hmadeRun, ← ih hnext hmade]
    rcases hfirst with rfl | ⟨hnone, hshort, rfl⟩
    · simp only [List.cons_append, makeParts, hnext]
    · simp [makeParts, hnone, hshort, isPointTail_concat hname]

theorem makeParts_of_makeDirectories {disk made : Disk} {directory : String}
    (h : disk.makeDirectories (opened directory) = (made, true)) :
    disk.makeParts (start disk.top (opened directory)) (leading directory ++ [""])
      = (made, true) := by
  rw [makeDirectories_eq, partsOf_opened] at h
  split at h
  next hempty =>
    -- The empty path stays at the top, which is there.
    have hstart := get?_start disk ""
    have hleading : leading directory = [] := by
      rw [leading, hempty]
      rfl
    simp only [hempty, hleading, List.nil_append, makeParts]
    rw [show follow (start disk.top "") "" = start disk.top "" from rfl, hstart]
    exact h
  next =>
    split at h
    · exact h
    · simp at h

/-- After a directory was made, it can be entered. -/
theorem enters_of_makeDirectories {disk made : Disk} {directory : String}
    (h : disk.makeDirectories (opened directory) = (made, true)) : made.Enters directory := by
  have hmade := makeParts_of_makeDirectories h
  have htop := (onlyMakes_makeParts disk (start disk.top (opened directory))
    (leading directory ++ [""])).top_eq
  rw [hmade] at htop
  have hwalk := walk?_of_makeParts hmade
  rw [walk?_append] at hwalk
  obtain ⟨reached, hreached, -⟩ := Option.bind_eq_some_iff.1 hwalk
  rw [Enters, htop, hreached, eq_foldl_of_walk? hreached, inside]

theorem makeDirectories_eq_makeParts {disk : Disk} {directory name : String}
    (hname : IsFileName name) (hpath : isPath (joinPath directory name) = true) :
    disk.makeDirectories (joinPath directory name)
      = disk.makeParts (start disk.top (opened directory)) (leading directory ++ [name]) := by
  rw [makeDirectories_eq, if_neg (joinPath_ne_empty hname directory), if_pos hpath,
    partsOf_joinPath hname, start_joinPath hname]

/-- A directory in a directory is made as if the outer one was made before. -/
theorem makeDirectories_joinPath {disk made : Disk} {directory name : String}
    (h : disk.makeDirectories (opened directory) = (made, true)) (hname : IsFileName name)
    (hpath : isPath (joinPath directory name) = true) :
    disk.makeDirectories (joinPath directory name)
      = made.makeDirectories (joinPath directory name) := by
  have htop := (onlyMakes_makeDirectories disk (opened directory)).top_eq
  rw [h] at htop
  rw [makeDirectories_eq_makeParts hname hpath, makeDirectories_eq_makeParts hname hpath, htop]
  exact makeParts_concat hname (get?_start disk _) (makeParts_of_makeDirectories h)

/-- A directory is made in one that can be entered, where no file stands. -/
theorem change_makeDirectory {disk : Disk} {directory name : String} (h : disk.Enters directory)
    (hname : IsFileName name) (hpath : isPath (joinPath directory name) = true)
    (hshort : isName name = true)
    (hfree : disk.get? (inside disk.top directory ++ [name]) = none ∨
      disk.get? (inside disk.top directory ++ [name]) = some .directory) :
    ∃ next, disk.change (.makeDirectory (joinPath directory name)) = (next, none) ∧
      ∀ place, next.get? place
        = if place = inside disk.top directory ++ [name] then some .directory
          else disk.get? place := by
  have hmake : disk.makeDirectories (joinPath directory name)
      = disk.makeParts (inside disk.top directory) [name] := by
    rw [makeDirectories_eq_makeParts hname hpath, makeParts_of_walk? h]
  have htail : isPointTail [] = false := rfl
  rw [change, hmake]
  rcases hfree with hnone | hdirectory
  · have hne : disk.get? (inside disk.top directory ++ [name]) ≠ some .directory := by
      simp [hnone]
    refine ⟨disk.put (inside disk.top directory ++ [name]) .directory, ?_,
      get?_put hne .directory⟩
    simp [makeParts, follow_of_isFileName hname, hnone, hshort, htail]
  · refine ⟨disk, ?_, ?_⟩
    · simp [makeParts, follow_of_isFileName hname, hdirectory]
    · intro place
      split
      next heq => rw [heq, hdirectory]
      next => rfl

/-- A file is written in a directory that can be entered, where no directory stands. -/
theorem change_writeFile {disk : Disk} {directory name : String} (h : disk.Enters directory)
    (hname : IsFileName name) (hpath : isPath (joinPath directory name) = true)
    (hshort : isName name = true)
    (hfree : disk.get? (inside disk.top directory ++ [name]) ≠ some .directory) (text : String) :
    ∃ next, disk.change (.writeFile (joinPath directory name) text) = (next, none) := by
  have hlocate := locate?_joinPath h hname hpath hshort
  rw [← placeOf_joinPath hname] at hlocate hfree
  have hwrite : ∃ next, disk.write? (joinPath directory name) text = some next := by
    simp only [write?_eq_some_iff]
    by_cases hnull : disk.get? (placeOf disk.top (joinPath directory name)) = some .null
    · exact ⟨disk, hlocate, Or.inl ⟨hnull, rfl⟩⟩
    · exact ⟨_, hlocate, Or.inr ⟨hfree, hnull, rfl⟩⟩
  obtain ⟨next, hnext⟩ := hwrite
  exact ⟨next, by rw [change, hnext]⟩

end Disk

end Recast.Command
