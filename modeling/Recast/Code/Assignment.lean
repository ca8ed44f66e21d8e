import Recast.Code.Region
import Recast.Text.Blank

/-!
# Assignment signs

A declarator such as `x = a == b` is cut at an assignment sign: an equals sign that is code and no
part of a longer operator. What stands on its two sides in the text decides that, also when the
character in front belongs to a comment. `assignments` lists the places of all assignment signs in
increasing order; `cutFirst` and `cutLast` cut a text at the first and at the last of them.
-/

set_option autoImplicit false

namespace Recast.Code

/-- The characters after which an equals sign ends an operator. -/
def operatorStarts : List Char :=
  ['=', '!', '<', '>', '+', '-', '*', '/', '%', '&', '|', '^', '?']

/-- The characters before which an equals sign begins an operator. -/
def operatorEnds : List Char :=
  ['=', '>']

/-- Whether an equals sign between two characters stands for an assignment. -/
def isAssignmentBetween (before after : Option Char) : Bool :=
  !before.any operatorStarts.contains && !after.any operatorEnds.contains

/-- The places of the assignment signs in some regions; `at_` is the place of the first region and
`before` the character in front of it. -/
def assignmentsFrom (before : Option Char) (at_ : Nat) : List Region → List Nat
  | [] => []
  | r :: rest =>
    let after := (rest.head?.map Region.text).bind List.head?
    let later := assignmentsFrom (r.text.getLast?) (at_ + r.text.length) rest
    if r = .code '=' && isAssignmentBetween before after then at_ :: later else later

/-- The places of the assignment signs of a text, counted in characters. -/
def assignments (s : List Char) : List Nat :=
  assignmentsFrom none 0 (regions s)

/-- The trimmed text before a place and the trimmed text after the character there; the whole text
trimmed if there is no place. -/
def cutAt (s : List Char) : Option Nat → List Char × Option (List Char)
  | some i => (Text.trim (s.take i), some (Text.trim (s.drop (i + 1))))
  | none => (Text.trim s, none)

/-- Cuts a text at its first assignment sign. -/
def cutFirst (text : String) : String × Option String :=
  let s := text.toList
  (cutAt s (assignments s).head?).map String.ofList (Option.map String.ofList)

/-- Cuts a text at its last assignment sign. -/
def cutLast (text : String) : String × Option String :=
  let s := text.toList
  (cutAt s (assignments s).getLast?).map String.ofList (Option.map String.ofList)

end Recast.Code
