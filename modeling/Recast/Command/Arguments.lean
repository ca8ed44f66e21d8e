/-!
# Arguments

The grammar of a command line: words that are options, options in a cluster of letters, the values
of options, and operands. A value stands behind an equals sign, directly behind its letter, or in
the next word, which then may not look like an option; a single dash does not. After `--` all words
are operands. No option may be given twice.
-/

set_option autoImplicit false

namespace Recast.Command

/-- An option: its long name, its letter if it has one, and whether it takes a value. -/
structure OptionSpec where
  long : String
  letter : Option Char := none
  takesValue : Bool := true
deriving DecidableEq, Repr

/-- Something given on a command line. -/
inductive Item where
  | flag (long : String)
  | setting (long value : String)
  | operand (text : String)
deriving DecidableEq, Repr

namespace Item

/-- The option that an item gives. -/
def option? : Item → Option String
  | .flag long => some long
  | .setting long _ => some long
  | .operand _ => none

/-- The text of an operand. -/
def operand? : Item → Option String
  | .operand text => some text
  | _ => none

end Item

/-- What a word gives, and the option whose value the next word has to be. -/
structure Word where
  items : List Item
  pending : Option String := none

/-- A word in front of which some items stand. -/
def Word.after (items : List Item) (word : Word) : Word :=
  { word with items := items ++ word.items }

/-- The part in front of the first equals sign, and the part behind it if there is one. -/
def splitEquals : List Char → List Char × Option (List Char)
  | [] => ([], none)
  | c :: s =>
    if c = '=' then ([], some s)
    else
      let later := splitEquals s
      (c :: later.1, later.2)

/-- A long option, without its dashes. -/
def longWord? (specs : List OptionSpec) (s : List Char) : Option Word := do
  let (name, value) := splitEquals s
  let spec ← specs.find? fun spec => spec.long = String.ofList name
  match spec.takesValue, value with
  | true, some value => return { items := [.setting spec.long (String.ofList value)] }
  | true, none => return { items := [], pending := some spec.long }
  | false, none => return { items := [.flag spec.long] }
  | false, some _ => none

/-- The value directly behind a letter; an equals sign in front of it is no part of it. -/
def attached : List Char → List Char
  | '=' :: value => value
  | value => value

/-- A cluster of letters, without its dash. -/
def cluster? (specs : List OptionSpec) : List Char → Option Word
  | [] => some { items := [] }
  | c :: s => do
    let spec ← specs.find? fun spec => spec.letter = some c
    if !spec.takesValue then
      return (← cluster? specs s).after [.flag spec.long]
    else if s.isEmpty then
      return { items := [], pending := some spec.long }
    else return { items := [.setting spec.long (String.ofList (attached s))] }

/-- What one word gives. -/
def word? (specs : List OptionSpec) (word : String) : Option Word :=
  match word.toList with
  | '-' :: '-' :: s => longWord? specs s
  | '-' :: c :: s => cluster? specs (c :: s)
  | _ => some { items := [.operand word] }

/-- Whether a word looks like an option. -/
def looksLikeOption (word : String) : Bool :=
  match word.toList with
  | '-' :: _ :: _ => true
  | _ => false

/-- What some words give. -/
def items? (specs : List OptionSpec) : List String → Option (List Item)
  | [] => some []
  | word :: words =>
    if word = "--" then some (words.map .operand)
    else
      match word? specs word with
      | none => none
      | some { items, pending := none } => (items? specs words).map (items ++ ·)
      | some { items, pending := some long } =>
        match words with
        | [] => none
        | value :: words =>
          if looksLikeOption value then none
          else (items? specs words).map (items ++ .setting long value :: ·)

/-- Whether no option is given twice. -/
def isOnce (items : List Item) : Bool :=
  (items.filterMap Item.option?).Nodup

/-- The value that some items give to an option. -/
def setting? (items : List Item) (long : String) : Option String :=
  items.findSome? fun
    | .setting name value => if name = long then some value else none
    | _ => none

/-- Whether some items give a flag. -/
def hasFlag (items : List Item) (long : String) : Bool :=
  items.contains (.flag long)

/-- The options in front of the first operand, that operand, and the words behind it. -/
def splitOperand? (specs : List OptionSpec) :
    List String → Option (List Item × String × List String)
  | [] => none
  | word :: words =>
    if word = "--" then none
    else
      match word? specs word with
      | some { items := [.operand name], pending := none } => some ([], name, words)
      | some { items, pending := none } =>
        (splitOperand? specs words).map fun (more, rest) => (items ++ more, rest)
      | _ => none

end Recast.Command
