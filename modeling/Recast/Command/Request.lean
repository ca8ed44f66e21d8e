import Recast.Command.Arguments

/-!
# Requests

What a command line asks for. There are three commands: `transpile` builds, transforms and prints,
`check` builds and counts, `dump` builds and prints the program as JSON. A command line that asks
for none of them is refused as a whole.
-/

set_option autoImplicit false

namespace Recast.Command

/-- Where a listing goes. -/
inductive Destination where
  | standardOutput
  | file (path : String)
  | directory (path : String)
deriving DecidableEq, Repr

/-- How to transpile. -/
structure TranspileOptions where
  destination : Destination := .standardOutput
  space : Option String := none
  jobs : Option Nat := none
  settings : Option String := none
  licenseMarker : Option String := none
  transform : Bool := true
deriving DecidableEq, Repr

/-- A command with the path of its input. -/
inductive Action where
  | transpile (input : String) (options : TranspileOptions)
  | check (input : String) (jobs : Option Nat)
  | dump (input : String) (jobs : Option Nat) (transformed : Bool) (settings : Option String)
deriving DecidableEq, Repr

/-- What a command line asks for. -/
structure Request where
  verbose : Bool
  action : Action
deriving DecidableEq, Repr

/-- The option that is known everywhere. -/
def verboseSpec : OptionSpec :=
  { long := "verbose", letter := some 'v', takesValue := false }

/-- The option for the number of jobs. -/
def jobsSpec : OptionSpec :=
  { long := "jobs", letter := some 'j' }

/-- The options of `transpile`. -/
def transpileSpecs : List OptionSpec :=
  [verboseSpec, jobsSpec, { long := "output", letter := some 'o' }, { long := "out-dir" },
    { long := "namespace" }, { long := "config" }, { long := "license-marker" },
    { long := "no-transform", takesValue := false }]

/-- The options of `check`. -/
def checkSpecs : List OptionSpec :=
  [verboseSpec, jobsSpec]

/-- The options of `dump`. -/
def dumpSpecs : List OptionSpec :=
  [verboseSpec, jobsSpec, { long := "transformed", takesValue := false }, { long := "config" }]

/-- A number below `2 ^ 64`: digits, a plus sign in front of them if there is one. -/
def number? (text : String) : Option Nat :=
  let digits := match text.toList with
    | '+' :: s => s
    | s => s
  let value := digits.foldl (fun n c => n * 10 + (c.toNat - '0'.toNat)) 0
  if !digits.isEmpty && digits.all Char.isDigit && value < Nat.pow 2 64 then some value else none

/-- The number of jobs; absent if it is not given. -/
def jobs? (items : List Item) : Option (Option Nat) :=
  match setting? items "jobs" with
  | some text => (number? text).map some
  | none => some none

/-- A path, which may not be empty. -/
def path? (text : String) : Option String :=
  if text = "" then none else some text

/-- The path given to an option; absent if it is not given. -/
def pathSetting? (items : List Item) (long : String) : Option (Option String) :=
  match setting? items long with
  | some text => (path? text).map some
  | none => some none

/-- The only operand, a path. -/
def input? (items : List Item) : Option String :=
  match items.filterMap Item.operand? with
  | [text] => path? text
  | _ => none

/-- Where the listing goes; a file and a directory exclude each other. -/
def destination? (items : List Item) : Option Destination := do
  match ← pathSetting? items "output", ← pathSetting? items "out-dir" with
  | none, none => return .standardOutput
  | some path, none => return .file path
  | none, some path => return .directory path
  | some _, some _ => none

/-- The action of a command, by its name and what is given behind it. -/
def action? (name : String) (words : List String) : Option (List Item × Action) := do
  if name = "transpile" then
    let items ← items? transpileSpecs words
    let input ← input? items
    return (items, .transpile input {
      destination := ← destination? items
      space := setting? items "namespace"
      jobs := ← jobs? items
      settings := ← pathSetting? items "config"
      licenseMarker := setting? items "license-marker"
      transform := !hasFlag items "no-transform" })
  else if name = "check" then
    let items ← items? checkSpecs words
    return (items, .check (← input? items) (← jobs? items))
  else if name = "dump" then
    let items ← items? dumpSpecs words
    return (items, .dump (← input? items) (← jobs? items) (hasFlag items "transformed")
      (← pathSetting? items "config"))
  else none

/-- The request of a command line. -/
def Request.ofArguments? (words : List String) : Option Request := do
  let (front, name, words) ← splitOperand? [verboseSpec] words
  let (items, action) ← action? name words
  if isOnce front && isOnce items then
    return { verbose := hasFlag front "verbose" || hasFlag items "verbose", action }
  else none

/-- How a command line is written. -/
def usage : String :=
  "usage: [-v] transpile INPUT [-o FILE | --out-dir DIR] [--namespace NAME] [-j N]\n"
    ++ "           [--config FILE] [--license-marker TEXT] [--no-transform]\n"
    ++ "       [-v] check INPUT [-j N]\n"
    ++ "       [-v] dump INPUT [-j N] [--transformed] [--config FILE]\n"

end Recast.Command
