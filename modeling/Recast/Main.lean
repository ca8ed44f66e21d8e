import Recast.Command.Plan

/-!
# The command line

Reads the files that a request may need, makes its plan, and carries the plan out. Nothing is
decided here: the plan says what to print, what to write and what went wrong.
-/

set_option autoImplicit false

namespace Recast.Command

/-- The files that an action may read. -/
def inputs : Action → List String
  | .transpile input options => input :: options.settings.toList
  | .check input _ => [input]
  | .dump input _ _ settings => input :: settings.toList

/-- Reads the files that can be read. -/
def readInputs : List String → IO (List (String × String))
  | [] => pure []
  | path :: paths => do
    let rest ← readInputs paths
    try
      return (path, ← IO.FS.readFile path) :: rest
    catch _ => return rest

/-- Makes the directories of a path behind the text of the path so far, those that are missing, but
none in front of a last point. -/
def makeParts (path : String) : List String → IO Bool
  | [] => return true
  | part :: parts => do
    let next := path ++ part
    unless Disk.staysPut part do
      try
        if Disk.isPointTail parts then discard (IO.FS.realPath (next ++ "/."))
        else IO.FS.createDirAll next
      catch _ => return false
    makeParts (next ++ "/") parts

/-- Makes one change of the files. -/
def perform : Change → IO (Option Failure)
  | .makeDirectory path => do
    let made ← makeParts "" ((pathParts path.toList).map String.ofList)
    return if made then none else some (.cannotCreate path)
  | .writeFile path text => do
    try
      IO.FS.writeFile path text
      return none
    catch _ => return some (.cannotWrite path)

/-- Makes changes in order, up to the first failure. -/
def performAll : List Change → IO (Option Failure)
  | [] => pure none
  | change :: changes => do
    match ← perform change with
    | none => performAll changes
    | some failure => return some failure

/-- A line of the log. -/
def logLine (event : Event) : String :=
  event.level.label.toUpper ++ " " ++ event.message
    ++ String.join (event.values.map fun (name, value) => " " ++ name ++ "=" ++ value.render)

/-- Whether an event is logged: warnings always, the rest when asked for. -/
def isLogged (verbose : Bool) (event : Event) : Bool :=
  verbose || event.level = .warn

/-- Prints a failure with its cause. -/
def printFailure (failure : Failure) : IO UInt32 := do
  IO.eprintln ("Error: " ++ failure.message)
  match failure.cause? with
  | some cause => IO.eprintln ("\nCaused by:\n    " ++ cause)
  | none => pure ()
  return 1

/-- Carries out a request and yields the exit code. -/
def carryOut (request : Request) : IO UInt32 := do
  let files ← readInputs (inputs request.action)
  let traced := plan .alone (fun path => files.lookup path) request.action
  for event in traced.events do
    if isLogged request.verbose event then IO.eprintln (logLine event)
  match traced.result with
  | .error failure => printFailure failure
  | .ok made =>
    match ← performAll made.changes with
    | some failure => printFailure failure
    | none =>
      IO.print made.output
      IO.eprint made.report
      return 0

end Recast.Command

/-- Carries out the request of a command line, or explains how to write one. -/
def main (words : List String) : IO UInt32 := do
  match Recast.Command.Request.ofArguments? words with
  | some request => Recast.Command.carryOut request
  | none =>
    IO.eprint Recast.Command.usage
    return 2
