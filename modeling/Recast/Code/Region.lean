/-!
# Regions of code text

A text is cut from left to right into regions: comments, literals, and single characters of code.
At each place the region is decided by the characters there alone. A line comment ends before the
next line feed, so the line feed itself is code. A block comment ends with the first `*/` that
begins after its opening `/*`. In a verbatim string a doubled quote is content. In a string or
character literal a backslash takes the next character with it. A region that is never closed runs
to the end of the text.

`regions` is the list of all of them. Each region takes at least one character, so as many steps as
there are characters are enough.
-/

set_option autoImplicit false

namespace Recast.Code

/-- A region, with its text. -/
inductive Region where
  | lineComment (text : List Char)
  | blockComment (text : List Char)
  | verbatim (text : List Char)
  | quoted (text : List Char)
  | code (c : Char)
deriving DecidableEq, Repr

/-- The characters of a region. -/
def Region.text : Region → List Char
  | .lineComment text => text
  | .blockComment text => text
  | .verbatim text => text
  | .quoted text => text
  | .code c => [c]

/-! ## The ends of regions

Each function takes the text after an opening mark to the part that belongs to the region, closing
mark included, and the rest. -/

/-- A line comment goes up to the next line feed, without it. -/
def lineEnd (s : List Char) : List Char × List Char :=
  (s.takeWhile (· ≠ '\n'), s.dropWhile (· ≠ '\n'))

/-- A block comment goes through the first `*/`. -/
def blockEnd : List Char → List Char × List Char
  | [] => ([], [])
  | '*' :: '/' :: s => (['*', '/'], s)
  | c :: s =>
    let ended := blockEnd s
    (c :: ended.1, ended.2)

/-- A verbatim string goes through the first quote that is not doubled. -/
def verbatimEnd : List Char → List Char × List Char
  | [] => ([], [])
  | '"' :: '"' :: s =>
    let ended := verbatimEnd s
    ('"' :: '"' :: ended.1, ended.2)
  | '"' :: s => (['"'], s)
  | c :: s =>
    let ended := verbatimEnd s
    (c :: ended.1, ended.2)

/-- A literal goes through the first `quote` that no backslash takes. -/
def quotedEnd (quote : Char) : List Char → List Char × List Char
  | [] => ([], [])
  | ['\\'] => (['\\'], [])
  | '\\' :: c :: s =>
    let ended := quotedEnd quote s
    ('\\' :: c :: ended.1, ended.2)
  | c :: s =>
    if c = quote then ([c], s)
    else
      let ended := quotedEnd quote s
      (c :: ended.1, ended.2)

/-! ## All regions -/

/-- The region at the front of `c :: s`, and the rest. -/
def region (c : Char) (s : List Char) : Region × List Char :=
  match c, s with
  | '/', '/' :: s => (.lineComment ('/' :: '/' :: (lineEnd s).1), (lineEnd s).2)
  | '/', '*' :: s => (.blockComment ('/' :: '*' :: (blockEnd s).1), (blockEnd s).2)
  | '@', '"' :: s => (.verbatim ('@' :: '"' :: (verbatimEnd s).1), (verbatimEnd s).2)
  | '"', s => (.quoted ('"' :: (quotedEnd '"' s).1), (quotedEnd '"' s).2)
  | '\'', s => (.quoted ('\'' :: (quotedEnd '\'' s).1), (quotedEnd '\'' s).2)
  | c, s => (.code c, s)

/-- The first regions of a text, at most `fuel` of them. -/
def regionsWithin : Nat → List Char → List Region
  | 0, _ => []
  | _, [] => []
  | fuel + 1, c :: s =>
    let found := region c s
    found.1 :: regionsWithin fuel found.2

/-- The regions of a text. -/
def regions (s : List Char) : List Region :=
  regionsWithin s.length s

end Recast.Code
