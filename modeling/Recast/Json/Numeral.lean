import Recast.Json.Basic

/-!
# Numerals

The number syntax of JSON, and the test whether a numeral is in the range of a double. Digits are
gathered into a 64-bit significand as long as they fit; the digits after that only shift the power
of ten. The numeral is in range if the significand times the power of ten, each rounded to the
nearest double, stays finite. Numbers too small for a double are in range.
-/

set_option autoImplicit false

namespace Recast

/-- A numeral by its parts, most significant digit first. -/
structure Numeral where
  negative : Bool
  whole : List Nat
  fraction : List Nat
  exponentNegative : Bool
  exponent : List Nat
deriving DecidableEq, Repr

namespace Numeral

/-- The value of a digit character. -/
def digitValue (c : Char) : Nat :=
  c.toNat - '0'.toNat

/-- The longest run of digits in front, and the rest. -/
def digits (s : List Char) : List Nat × List Char :=
  ((s.takeWhile Char.isDigit).map digitValue, s.dropWhile Char.isDigit)

/-- The number written by some digits. -/
def ofDigits (ds : List Nat) : Nat :=
  ds.foldl (fun n d => n * 10 + d) 0

/-- A whole part: `0` alone, or digits without a leading zero. -/
def whole? (s : List Char) : Option (List Nat × List Char) :=
  match digits s with
  | ([], _) => none
  | (0 :: _ :: _, _) => none
  | (ds, rest) => some (ds, rest)

/-- A fraction: nothing, or a point and at least one digit. -/
def fraction? : List Char → Option (List Nat × List Char)
  | '.' :: s =>
    match digits s with
    | ([], _) => none
    | (ds, rest) => some (ds, rest)
  | s => some ([], s)

/-- An exponent up to the end: nothing, or a mark, a sign if there is one, and some digits. -/
def exponent? : List Char → Option (Bool × List Nat)
  | [] => some (false, [])
  | mark :: s =>
    if mark = 'e' || mark = 'E' then
      let (negative, s) := match s with
        | '-' :: s => (true, s)
        | '+' :: s => (false, s)
        | s => (false, s)
      match digits s with
      | ([], _) => none
      | (ds, []) => some (negative, ds)
      | _ => none
    else none

/-- Reads a numeral that takes up the whole text. -/
def ofChars? (s : List Char) : Option Numeral := do
  let (negative, s) := match s with
    | '-' :: s => (true, s)
    | s => (false, s)
  let (whole, s) ← whole? s
  let (fraction, s) ← fraction? s
  let (exponentNegative, exponent) ← exponent? s
  return { negative, whole, fraction, exponentNegative, exponent }

/-- The exact value. -/
def value (n : Numeral) : Decimal :=
  let magnitude : Int := ofDigits (n.whole ++ n.fraction)
  let power : Int := ofDigits n.exponent
  { mantissa := if n.negative then -magnitude else magnitude
    exponent := (if n.exponentNegative then -power else power) - n.fraction.length }

/-- Whether one more digit keeps a significand within 64 bits. -/
def hasRoom (significand digit : Nat) : Bool :=
  significand * 10 + digit < Nat.pow 2 64

/-- Gathers the digits of a whole part; the second component counts those that found no room. -/
def gatherWhole (significand : Nat) : List Nat → Nat × Nat
  | [] => (significand, 0)
  | d :: ds =>
    if hasRoom significand d then gatherWhole (significand * 10 + d) ds
    else (significand, ds.length + 1)

/-- Gathers the digits of a fraction; the second component counts those that found room. -/
def gatherFraction (significand : Nat) : List Nat → Nat × Nat
  | [] => (significand, 0)
  | d :: ds =>
    if hasRoom significand d then
      let (gathered, count) := gatherFraction (significand * 10 + d) ds
      (gathered, count + 1)
    else (significand, 0)

/-- The nearest number with a significand of 53 bits, a tie going to the even one. -/
def roundToDouble (n : Nat) : Nat :=
  if n < Nat.pow 2 53 then n
  else
    let unit := Nat.pow 2 (n.log2 - 52)
    let below := n / unit
    let excess := n % unit
    let up := unit < 2 * excess || (2 * excess = unit && below % 2 = 1)
    (if up then below + 1 else below) * unit

/-- The least number that rounds to infinity as a double. -/
def overflowBound : Nat :=
  Nat.pow 2 1024 - Nat.pow 2 970

/-- The greatest power of ten that is a finite double. -/
def maxPower : Int :=
  308

/-- The greatest exponent that is read; beyond it a numeral is zero or out of range. -/
def maxExponent : Nat :=
  Nat.pow 2 31 - 1

/-- Whether a numeral is in the range of a double. -/
def isInRange (n : Numeral) : Bool :=
  let (whole, dropped) := gatherWhole 0 n.whole
  let (significand, gathered) := gatherFraction whole n.fraction
  let exponent := ofDigits n.exponent
  let signed : Int := if n.exponentNegative then -exponent else exponent
  let power := dropped - gathered + signed
  if significand = 0 then true
  else if maxExponent < exponent then n.exponentNegative
  else if power ≤ 0 then true
  else if maxPower < power then false
  else roundToDouble significand * roundToDouble (Nat.pow 10 power.toNat) < overflowBound

/-- The value of a numeral, unusable when out of range. -/
def toJson (n : Numeral) : Json :=
  if n.isInRange then .num n.value else .unusable

end Numeral

end Recast
