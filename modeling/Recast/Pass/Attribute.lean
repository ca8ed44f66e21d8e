import Recast.Text.Blank

/-!
# Attribute names

The text of attribute sections, such as `[field: A.B.Generated, Obsolete("x")]`, names attributes.
The text is cut at brackets and commas outside of parentheses. Of each piece, what stands from the
first parenthesis on is no part of the name, nor is a target up to its colon, nor a qualifier up to
the last point, nor the suffix `Attribute` if something stands in front of it.
-/

set_option autoImplicit false

namespace Recast.Attribute

/-- Whether a character divides attributes outside of parentheses. -/
def isDivider (c : Char) : Bool :=
  c = '[' || c = ']' || c = ','

/-- How many parentheses are open after a character; a closing one too many counts for nothing. -/
def depthAfter (depth : Nat) (c : Char) : Nat :=
  if c = '(' then depth + 1 else if c = ')' then depth - 1 else depth

/-- The first piece of a text that begins inside `depth` parentheses, and the other pieces. -/
def piecesFrom (depth : Nat) : List Char → List Char × List (List Char)
  | [] => ([], [])
  | c :: s =>
    if depth = 0 && isDivider c then
      let later := piecesFrom 0 s
      ([], later.1 :: later.2)
    else
      let later := piecesFrom (depthAfter depth c) s
      (c :: later.1, later.2)

/-- The pieces of a text between its dividers. -/
def pieces (s : List Char) : List (List Char) :=
  (piecesFrom 0 s).1 :: (piecesFrom 0 s).2

/-- What follows the first colon, or the whole if there is none. -/
def afterColon (s : List Char) : List Char :=
  match s.dropWhile (· ≠ ':') with
  | [] => s
  | _ :: rest => rest

/-- What follows the last point, or the whole if there is none. -/
def afterLastPoint (s : List Char) : List Char :=
  (s.reverse.takeWhile (· ≠ '.')).reverse

/-- The ending that the name of an attribute may have. -/
def ending : List Char :=
  ['A', 't', 't', 'r', 'i', 'b', 'u', 't', 'e']

/-- A name without its ending, if something stands in front of the ending. -/
def withoutEnding (s : List Char) : List Char :=
  if ending.isSuffixOf s && ending.length < s.length then s.take (s.length - ending.length) else s

/-- The bare name of an attribute. -/
def bareName (s : List Char) : List Char :=
  withoutEnding (Text.trim (afterLastPoint (Text.trim s)))

/-- The name in a piece of a text; empty if there is none. -/
def pieceName (piece : List Char) : List Char :=
  bareName (afterColon (piece.takeWhile (· ≠ '(')))

/-- The bare names of the attributes in a text. -/
def names (s : List Char) : List (List Char) :=
  ((pieces s).map pieceName).filter fun name => !name.isEmpty

end Recast.Attribute
