import Recast.Build.Fragment
import Recast.Command.Disk
import Recast.Command.Request
import Recast.Json.Printer
import Recast.Json.Reader
import Recast.Listing
import Recast.Pass.Basic
import Recast.Program.Json
import Recast.Program.Merge
import Recast.Tree.Json

/-!
# Carrying out a request

A request is carried out in two steps. `plan` reads what it needs and yields what is to be printed
and written, or the reason why there is nothing to do; it changes nothing. `Disk.carryOut` then
performs the writes in order and stops at the first one that fails, and what was written before
stays written.

Units are built by workers, as many as the request asks for, or else as many as there usually are.
-/

set_option autoImplicit false

namespace Recast.Command

/-- Why a request cannot be carried out. -/
inductive Failure where
  | unreadable (path : String)
  | notADump (path : String)
  | badSettings (path : String)
  | buildFailed (path : String) (fault : BuildFault)
  | noNamespace (name : String)
  | passFailed (space : String) (fault : PassFault)
  | cannotCreate (path : String)
  | cannotWrite (path : String)
deriving DecidableEq, Repr

namespace Failure

/-- The message of a failure. -/
def message : Failure → String
  | .unreadable path => "failed to read " ++ path
  | .notADump path => path ++ " is not a syntax-tree dump"
  | .badSettings path => "invalid pipeline configuration in " ++ path
  | .buildFailed path _ => "failed to build " ++ path
  | .noNamespace name => "namespace `" ++ name ++ "` not found in input"
  | .passFailed space _ => "pipeline failed on namespace `" ++ space ++ "`"
  | .cannotCreate path => "failed to create " ++ path
  | .cannotWrite path => "failed to write " ++ path

/-- A text whose lines after the first are moved in by four blanks, to stand below a first line that
is moved in likewise. -/
def indented (text : String) : String :=
  String.ofList (text.toList.flatMap fun c => if c = '\n' then ['\n', ' ', ' ', ' ', ' '] else [c])

/-- The message of the fault behind a failure, as it stands below the message of the failure. -/
def cause? : Failure → Option String
  | .buildFailed _ fault => some (indented fault.message)
  | .passFailed _ fault => some (indented fault.message)
  | _ => none

end Failure

/-- A change of the files. -/
inductive Change where
  | makeDirectory (path : String)
  | writeFile (path text : String)
deriving DecidableEq, Repr

/-- What a request comes to: the changes of the files, and the two outputs after them. -/
structure Plan where
  changes : List Change := []
  output : String := ""
  report : String := ""
deriving DecidableEq, Repr

/-! ## Reading -/

/-- How the text of a file is found. -/
abbrev Source := String → Option String

/-- The text of a file, or the failure to read it. -/
def readFile (source : Source) (path : String) : Traced Failure String :=
  match source path with
  | some text => pure text
  | none => Traced.fail (.unreadable path)

/-- The units of a dump. -/
def readUnits (source : Source) (path : String) : Traced Failure (List Node) := do
  match (Json.read Json.nestingLimit (← readFile source path)).bind Node.unitsOfJson? with
  | some units => return units
  | none => Traced.fail (.notADump path)

/-- The settings in a file, or the usual ones. -/
def readSettings (source : Source) : Option String → Traced Failure Settings
  | none => pure {}
  | some path => do
    match (Json.read Json.nestingLimit (← readFile source path)).bind Settings.ofJson? with
    | some settings => return settings
    | none => Traced.fail (.badSettings path)

/-- The settings of `transpile`: a marker on the command line counts more than the file. -/
def transpileSettings (source : Source) (options : TranspileOptions) :
    Traced Failure Settings := do
  let settings ← readSettings source options.settings
  match options.licenseMarker with
  | some licenseMarker => return { settings with licenseMarker }
  | none => return settings

/-! ## Working -/

/-- The merged namespaces of an input. -/
def mergedInput (workers : Workers) (source : Source) (path : String) (jobs : Option Nat) :
    Traced Failure Merged := do
  let units ← readUnits source path
  let fragments ←
    (Build.unitsWithJobs workers (jobs.getD workers.usual) units).mapFault (.buildFailed path)
  let merged := merge fragments
  Traced.reportAll merged.events
  Traced.report (.fragmentsMerged merged.namespaces.length merged.conflicts.length)
  return merged

/-- The namespaces that are asked for: all, or the one of a name, the empty name being that of the
namespace without a name. -/
def select (merged : Merged) : Option String → Except Failure (List Namespace)
  | none => .ok merged.namespaces
  | some name =>
    match merged.get? (if name = "" then none else some name) with
    | some space => .ok [space]
    | none => .error (.noNamespace name)

/-- The usual passes on several namespaces. -/
def transform (settings : Settings) : List Namespace → Traced Failure (List Namespace)
  | [] => pure []
  | space :: spaces => do
    let changed ← (Pass.pipeline settings space).mapFault (.passFailed space.displayName)
    return changed :: (← transform settings spaces)

/-! ## Writing -/

/-- The directory for the types of a namespace. -/
def spaceDirectory (directory : String) (space : Namespace) : String :=
  joinPath directory (space.name.getD "_")

/-- The file for the text of a type. -/
def pieceFile (directory : String) (space : Namespace) (piece : Listing.Piece) : String :=
  joinPath (spaceDirectory directory space) (piece.name ++ ".txt")

/-- The changes that write the types of a namespace, one file each. -/
def spaceChanges (directory : String) (space : Namespace) : List Change :=
  .makeDirectory (spaceDirectory directory space)
    :: (Listing.pieces space).map fun piece =>
      .writeFile (pieceFile directory space piece) piece.text

/-- The listing of several namespaces. -/
def listing (spaces : List Namespace) : String :=
  String.join (spaces.map Listing.space)

/-- The plan that brings namespaces to their destination. -/
def deliver (spaces : List Namespace) : Destination → Plan
  | .standardOutput => { output := listing spaces }
  | .file path => { changes := [.writeFile path (listing spaces)] }
  | .directory path =>
    { changes := spaces.flatMap (spaceChanges path)
      report := "Wrote " ++ toString spaces.length ++ " namespace(s) to " ++ path ++ "\n" }

/-- One line on a namespace: how many classes and enumerations it has. -/
def countLine (space : Namespace) : String :=
  space.name.getD "<default>" ++ ": " ++ toString space.classes.length ++ " class(es), "
    ++ toString space.enums.length ++ " enum(s)\n"

/-! ## Requests -/

/-- The plan of `transpile`. -/
def planTranspile (workers : Workers) (source : Source) (input : String)
    (options : TranspileOptions) : Traced Failure Plan := do
  let settings ← transpileSettings source options
  let merged ← mergedInput workers source input options.jobs
  let spaces ← Traced.ofExcept (select merged options.space)
  let spaces ← if options.transform then transform settings spaces else pure spaces
  return deliver spaces options.destination

/-- The plan of `check`. -/
def planCheck (workers : Workers) (source : Source) (input : String) (jobs : Option Nat) :
    Traced Failure Plan := do
  let merged ← mergedInput workers source input jobs
  Traced.reportAll (merged.conflicts.map fun conflict =>
    .typeDuplicated (conflict.space.getD "") conflict.type)
  return { output := String.join (merged.namespaces.map countLine)
           report := "OK: " ++ input ++ " (" ++ toString merged.conflicts.length
             ++ " conflict(s))\n" }

/-- The plan of `dump`; the settings are read only if they are needed. -/
def planDump (workers : Workers) (source : Source) (input : String) (jobs : Option Nat)
    (transformed : Bool) (settings : Option String) : Traced Failure Plan := do
  let merged ← mergedInput workers source input jobs
  let spaces ←
    if transformed then do transform (← readSettings source settings) merged.namespaces
    else pure merged.namespaces
  return { output := (Json.arr (spaces.map Namespace.toJson)).renderIndented ++ "\n" }

/-- The plan of a request. -/
def plan (workers : Workers) (source : Source) : Action → Traced Failure Plan
  | .transpile input options => planTranspile workers source input options
  | .check input jobs => planCheck workers source input jobs
  | .dump input jobs transformed settings => planDump workers source input jobs transformed settings

/-! ## Carrying out -/

/-- What came of a request. -/
structure Outcome where
  disk : Disk
  output : String := ""
  report : String := ""
  failure : Option Failure := none
deriving DecidableEq, Repr

namespace Disk

/-- Makes one change; after a failure, what was made on the way stays. -/
def change (disk : Disk) : Change → Disk × Option Failure
  | .makeDirectory path =>
    let made := disk.makeDirectories path
    (made.1, if made.2 then none else some (.cannotCreate path))
  | .writeFile path text =>
    match disk.write? path text with
    | some written => (written, none)
    | none => (disk, some (.cannotWrite path))

/-- Makes changes in order, up to the first failure. -/
def changeAll (disk : Disk) : List Change → Disk × Option Failure
  | [] => (disk, none)
  | change :: changes =>
    match disk.change change with
    | (next, none) => next.changeAll changes
    | (next, some failure) => (next, some failure)

/-- Carries out an action. -/
def carryOut (workers : Workers) (disk : Disk) (action : Action) : Outcome :=
  match (plan workers disk.read? action).result with
  | .error failure => { disk, failure := some failure }
  | .ok plan =>
    match disk.changeAll plan.changes with
    | (next, none) => { disk := next, output := plan.output, report := plan.report }
    | (next, some failure) => { disk := next, failure := some failure }

end Disk

end Recast.Command
