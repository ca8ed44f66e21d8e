/-!
# Files

Files and directories by their places, the names from the root of all files down. A path is given as
text and read from left to right, each part but the last a directory that has to exist; an empty
part and `.` stay where they are and `..` goes up. A path that begins with a slash begins at the
root of all files, and any other one at the top, the directory in which the paths are given. The top
and all directories above it are always there, and so is the null device, a file that is always
empty and takes any text.

A missing directory is made where the path names it. A point stays only in a directory that is there
already, so a path that names a missing directory and ends with a point behind it makes those before
and fails.

Names have at most 255 bytes and paths fewer than 4096, and neither holds the character zero.
-/

set_option autoImplicit false

namespace Recast.Command

/-- The parts of a path between slashes. -/
def pathParts : List Char → List (List Char)
  | [] => [[]]
  | c :: s =>
    if c = '/' then [] :: pathParts s
    else
      match pathParts s with
      | part :: parts => (c :: part) :: parts
      | [] => [[c]]

/-- A path behind a directory: from the root if it begins there, else below the directory. Behind no
directory at all it stays as it is. -/
def joinPath (directory path : String) : String :=
  match path.toList, directory.toList.getLast? with
  | '/' :: _, _ => path
  | _, none => path
  | _, some '/' => directory ++ path
  | _, some _ => directory ++ "/" ++ path

/-- What stands at a place: a directory, a file with its text if it holds any, or a file that is
always empty. -/
inductive Entry where
  | directory
  | file (text : Option String)
  | null
deriving DecidableEq, Repr

/-- A place: the names that lead to it from the root of all files. -/
abbrev Place := List String

/-- Files and directories, each place once, and the directory where paths begin that do not begin at
the root. -/
structure Disk where
  top : Place := []
  entries : List (Place × Entry) := []
deriving DecidableEq, Repr

namespace Disk

/-- Whether a place is the top or above it. -/
def isAbove (disk : Disk) (place : Place) : Bool :=
  place.isPrefixOf disk.top

/-- What stands in every system. -/
def system : List (Place × Entry) :=
  [(["dev"], .directory), (["dev", "null"], .null)]

/-- What stands at a place. -/
def get? (disk : Disk) (place : Place) : Option Entry :=
  if disk.isAbove place then some .directory
  else (disk.entries.lookup place).or (system.lookup place)

/-- Puts something at a place. -/
def put (disk : Disk) (place : Place) (entry : Entry) : Disk :=
  if disk.entries.any fun old => old.1 = place then
    { disk with
      entries := disk.entries.map fun old => if old.1 = place then (place, entry) else old }
  else { disk with entries := disk.entries ++ [(place, entry)] }

/-- What stands below the top and did not stand so before, by its place seen from the top. -/
def newSince (disk before : Disk) : List (Place × Entry) :=
  let changed := disk.entries.filter fun (place, entry) =>
    disk.top.isPrefixOf place && before.get? place ≠ some entry
  changed.map fun (place, entry) => (place.drop disk.top.length, entry)

/-- Whether a text can be a path. -/
def isPath (path : String) : Bool :=
  !path.isEmpty && path.utf8ByteSize < 4096 && !path.toList.contains '\x00'

/-- Whether a text can be a name. -/
def isName (name : String) : Bool :=
  name.utf8ByteSize ≤ 255

/-- The parts of a path. -/
def parts? (path : String) : Option (List String) :=
  if isPath path then some ((pathParts path.toList).map String.ofList) else none

/-- The place where a path begins. -/
def start (top : Place) (path : String) : Place :=
  if path.toList.head? = some '/' then [] else top

/-- Whether a part of a path stays where it is. -/
def staysPut (part : String) : Bool :=
  part = "" || part = "."

/-- Where one part of a path leads from a directory, whether something stands there or not. -/
def follow (place : Place) (part : String) : Place :=
  if staysPut part then place else if part = ".." then place.dropLast else place ++ [part]

/-- Whether the rest of a path names nothing more and has a point in it. -/
def isPointTail (parts : List String) : Bool :=
  parts.all staysPut && parts.contains "."

/-- Where a path of directories leads. -/
def walk? (disk : Disk) (place : Place) : List String → Option Place
  | [] => some place
  | part :: parts =>
    if disk.get? (follow place part) = some .directory then disk.walk? (follow place part) parts
    else none

/-- The place that a path names, if the directories on the way exist. -/
def locate? (disk : Disk) (path : String) : Option Place := do
  let parts ← parts? path
  let place ← disk.walk? (start disk.top path) parts.dropLast
  let last ← parts.getLast?
  if isName last then return follow place last else none

/-- The text of a file. -/
def read? (disk : Disk) (path : String) : Option String := do
  match disk.get? (← disk.locate? path) with
  | some (.file text) => text
  | some .null => some ""
  | _ => none

/-- Writes a file. -/
def write? (disk : Disk) (path text : String) : Option Disk := do
  let place ← disk.locate? path
  match disk.get? place with
  | some .directory => none
  | some .null => return disk
  | _ => return disk.put place (.file (some text))

/-- Makes the directories of a path from some place on, those that are missing, but none in front of
a last point. The second component says whether that worked; what was made before a failure
stays. -/
def makeParts (disk : Disk) (place : Place) : List String → Disk × Bool
  | [] => (disk, true)
  | part :: parts =>
    let next := follow place part
    match disk.get? next with
    | some .directory => disk.makeParts next parts
    | some _ => (disk, false)
    | none =>
      if isName part && !isPointTail parts then (disk.put next .directory).makeParts next parts
      else (disk, false)

/-- Makes the directories of a path, those that are missing. The empty path asks for none. -/
def makeDirectories (disk : Disk) (path : String) : Disk × Bool :=
  if path = "" then (disk, true)
  else
    match parts? path with
    | some parts => disk.makeParts (start disk.top path) parts
    | none => (disk, false)

end Disk

end Recast.Command
