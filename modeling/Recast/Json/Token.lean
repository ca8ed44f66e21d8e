import Recast.Json.Numeral

/-!
# Tokens of JSON text

A text is cut into tokens by one pass over its characters, `Lexer.step`, so the cutting is total
without any bound on the text. Names and numerals are gathered as bare words and judged when they
end. A string token carries no text when its escapes leave a surrogate unpaired.
-/

set_option autoImplicit false

namespace Recast.Json

/-- A token of JSON text. -/
inductive Token where
  | openObject
  | closeObject
  | openArray
  | closeArray
  | comma
  | colon
  | scalar (value : Json)
  | text (value : Option String)
deriving Repr

/-! ## Strings -/

/-- A string token being read: its characters, last one first, and a leading surrogate that waits
for its partner. -/
structure Quoted where
  chars : List Char := []
  leading : Option Nat := none
  paired : Bool := true
deriving Repr

namespace Quoted

/-- Adds a character; a waiting surrogate stays without a partner. -/
def push (q : Quoted) (c : Char) : Quoted :=
  { chars := c :: q.chars, leading := none, paired := q.paired && q.leading.isNone }

/-- Whether a code unit is the first half of a pair. -/
def isLeading (unit : Nat) : Bool :=
  0xD800 ≤ unit && unit ≤ 0xDBFF

/-- Whether a code unit is the second half of a pair. -/
def isTrailing (unit : Nat) : Bool :=
  0xDC00 ≤ unit && unit ≤ 0xDFFF

/-- Adds the code unit of an escape. -/
def pushUnit (q : Quoted) (unit : Nat) : Quoted :=
  match q.leading with
  | some leading =>
    if isTrailing unit then
      { q with
        chars := Char.ofNat (0x10000 + (leading - 0xD800) * 0x400 + (unit - 0xDC00)) :: q.chars
        leading := none }
    else { q with leading := none, paired := false }
  | none =>
    if isLeading unit then { q with leading := some unit }
    else if isTrailing unit then { q with paired := false }
    else q.push (Char.ofNat unit)

/-- The text of a string that has ended, if all its surrogates are paired. -/
def text? (q : Quoted) : Option String :=
  if q.paired && q.leading.isNone then some (String.ofList q.chars.reverse) else none

end Quoted

/-- The character that a one-letter escape stands for. -/
def escaped? : Char → Option Char
  | '"' => some '"'
  | '\\' => some '\\'
  | '/' => some '/'
  | 'b' => some '\x08'
  | 'f' => some '\x0c'
  | 'n' => some '\n'
  | 'r' => some '\r'
  | 't' => some '\t'
  | _ => none

/-- The value of a hexadecimal digit. -/
def hexValue? (c : Char) : Option Nat :=
  if c.isDigit then some (c.toNat - '0'.toNat)
  else if 'a' ≤ c && c ≤ 'f' then some (c.toNat - 'a'.toNat + 10)
  else if 'A' ≤ c && c ≤ 'F' then some (c.toNat - 'A'.toNat + 10)
  else none

/-! ## The lexer -/

/-- Where the lexer stands. -/
inductive LexMode where
  | between
  | bare (chars : List Char)
  | quoted (q : Quoted)
  | escape (q : Quoted)
  | unit (q : Quoted) (digits value : Nat)

/-- The lexer: where it stands, and the tokens read so far, last one first. -/
structure Lexer where
  mode : LexMode := .between
  tokens : List Token := []

/-- The blanks of JSON. -/
def isSpace (c : Char) : Bool :=
  c = ' ' || c = '\t' || c = '\n' || c = '\r'

/-- The token of a punctuation character. -/
def punctuation? (c : Char) : Option Token :=
  if c = '\x7b' then some .openObject
  else if c = '\x7d' then some .closeObject
  else if c = '[' then some .openArray
  else if c = ']' then some .closeArray
  else if c = ',' then some .comma
  else if c = ':' then some .colon
  else none

/-- The token of a bare word: one of three names, or a numeral. -/
def bareToken? (word : List Char) : Option Token :=
  if word = ['t', 'r', 'u', 'e'] then some (.scalar (.bool true))
  else if word = ['f', 'a', 'l', 's', 'e'] then some (.scalar (.bool false))
  else if word = ['n', 'u', 'l', 'l'] then some (.scalar .null)
  else (Numeral.ofChars? word).map fun n => .scalar n.toJson

namespace Lexer

/-- Reads a character outside any token. -/
def stepBetween (tokens : List Token) (c : Char) : Lexer :=
  if isSpace c then { tokens }
  else if c = '"' then { mode := .quoted {}, tokens }
  else match punctuation? c with
    | some token => { tokens := token :: tokens }
    | none => { mode := .bare [c], tokens }

/-- Whether a character ends a bare word. -/
def endsBare (c : Char) : Bool :=
  isSpace c || c = '"' || (punctuation? c).isSome

/-- Reads one character; `none` when the text is no JSON. -/
def step (l : Lexer) (c : Char) : Option Lexer :=
  match l.mode with
  | .between => some (stepBetween l.tokens c)
  | .bare chars =>
    if endsBare c then (bareToken? chars.reverse).map fun token => stepBetween (token :: l.tokens) c
    else some { l with mode := .bare (c :: chars) }
  | .quoted q =>
    if c = '"' then some { tokens := .text q.text? :: l.tokens }
    else if c = '\\' then some { l with mode := .escape q }
    else if c.toNat < 0x20 then none
    else some { l with mode := .quoted (q.push c) }
  | .escape q =>
    if c = 'u' then some { l with mode := .unit q 0 0 }
    else (escaped? c).map fun e => { l with mode := .quoted (q.push e) }
  | .unit q digits value =>
    (hexValue? c).map fun d =>
      if digits = 3 then { l with mode := .quoted (q.pushUnit (value * 16 + d)) }
      else { l with mode := .unit q (digits + 1) (value * 16 + d) }

/-- The tokens of a text that has ended. -/
def finish? (l : Lexer) : Option (List Token) :=
  match l.mode with
  | .between => some l.tokens.reverse
  | .bare chars => (bareToken? chars.reverse).map fun token => (token :: l.tokens).reverse
  | _ => none

end Lexer

/-- The tokens of a text. -/
def tokens? (text : List Char) : Option (List Token) := do
  let lexer ← text.foldlM Lexer.step {}
  lexer.finish?

end Recast.Json
