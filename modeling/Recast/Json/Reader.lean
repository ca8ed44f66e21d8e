import Recast.Json.Token

/-!
# Reading JSON text

`Json.read limit text` reads a text that holds exactly one value. The containers that are open are
kept on a stack, so a reading is one pass over the tokens, however deep the nesting. A container
with more than `limit` containers around and including it becomes `Json.unusable`.
-/

set_option autoImplicit false

namespace Recast.Json

/-- How many containers may stand inside each other in the texts that this library is given. -/
def nestingLimit : Nat :=
  127

/-- An open container: what it holds so far, last one first, and for an object the key whose value
is being read. -/
inductive Frame where
  | array (read : List Json)
  | object (read : List (Option String × Json)) (key : Option String)

/-- The value of a container that closes. -/
def Frame.close : Frame → Json
  | .array read => .arr read.reverse
  | .object read _ =>
    match read.reverse.mapM fun (key, value) => key.map fun k => (k, value) with
    | some members => .obj members
    | none => .unusable

/-- What the reader waits for, inside the open containers, innermost first. -/
inductive ReadState where
  | awaitValue (stack : List Frame)
  | awaitItem (stack : List Frame)
  | awaitKey (read : List (Option String × Json)) (stack : List Frame)
  | awaitFirstKey (stack : List Frame)
  | awaitColon (read : List (Option String × Json)) (key : Option String) (stack : List Frame)
  | awaitNext (frame : Frame) (stack : List Frame)
  | finished (value : Json)

namespace ReadState

/-- Hands a value that is complete to the innermost open container. -/
def deliver (value : Json) : List Frame → ReadState
  | [] => .finished value
  | .array read :: stack => .awaitNext (.array (value :: read)) stack
  | .object read key :: stack => .awaitNext (.object ((key, value) :: read) none) stack

/-- Closes a container inside `stack`. -/
def close (limit : Nat) (frame : Frame) (stack : List Frame) : ReadState :=
  deliver (if stack.length < limit then frame.close else .unusable) stack

/-- Reads the first token of a value. -/
def beginValue (stack : List Frame) : Token → Option ReadState
  | .scalar value => some (deliver value stack)
  | .text (some s) => some (deliver (.str s) stack)
  | .text none => some (deliver .unusable stack)
  | .openArray => some (.awaitItem stack)
  | .openObject => some (.awaitFirstKey stack)
  | _ => none

/-- Reads one token; `none` when the text is no JSON. -/
def step (limit : Nat) : ReadState → Token → Option ReadState
  | .awaitValue stack, token => beginValue stack token
  | .awaitItem stack, .closeArray => some (close limit (.array []) stack)
  | .awaitItem stack, token => beginValue (.array [] :: stack) token
  | .awaitFirstKey stack, .closeObject => some (close limit (.object [] none) stack)
  | .awaitFirstKey stack, .text key => some (.awaitColon [] key stack)
  | .awaitKey read stack, .text key => some (.awaitColon read key stack)
  | .awaitColon read key stack, .colon => some (.awaitValue (.object read key :: stack))
  | .awaitNext (.array read) stack, .comma => some (.awaitValue (.array read :: stack))
  | .awaitNext (.array read) stack, .closeArray => some (close limit (.array read) stack)
  | .awaitNext (.object read _) stack, .comma => some (.awaitKey read stack)
  | .awaitNext (.object read key) stack, .closeObject => some (close limit (.object read key) stack)
  | _, _ => none

end ReadState

/-- Reads a text that holds one value and nothing else. -/
def read (limit : Nat) (text : String) : Option Json := do
  let tokens ← tokens? text.toList
  match ← tokens.foldlM (ReadState.step limit) (.awaitValue []) with
  | .finished value => return value
  | _ => none

end Recast.Json
