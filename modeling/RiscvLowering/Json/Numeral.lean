import RiscvLowering.Json.Token

/-!
# Numerals

A numeral is scanned by its shape and then valued. Only a numeral without fraction and exponent that
fits 64 bits is an integer; minus zero is none. Every other numeral stands for an inexact number,
which no field takes, but its magnitude still has to be below the range of doubles.

The magnitude is judged as `m * 10 ^ p`, where `m` holds the leading digits that fit 64 bits and the
power accounts for the others: `m` and the power of ten are each rounded to a double, and their
product must not round past the largest one.
-/

namespace RiscvLowering.Json

structure Numeral where
  negative : Bool
  whole : List Char
  /-- The digits after the point; none where there is no point. -/
  fraction : List Char
  /-- The exponent: whether it is negative, and its digits. -/
  exponent : Option (Bool × List Char)
deriving DecidableEq

inductive Number where
  | integer (n : Int)
  | inexact
deriving DecidableEq

namespace Numeral

/-- Takes a run of digits off the front; there has to be one. -/
def digits : Reader (List Char)
  | [] => .error .truncated
  | c :: cs =>
    if c.isDigit then .ok ((c :: cs).takeWhile Char.isDigit, (c :: cs).dropWhile Char.isDigit)
    else .error .malformed

/-- The digits before the point: a leading 0 stands alone. -/
def wholePart : Reader (List Char)
  | '0' :: c :: cs => if c.isDigit then .error .malformed else .ok (['0'], c :: cs)
  | cs => digits cs

def fractionPart : Reader (List Char)
  | '.' :: cs => digits cs
  | cs => .ok ([], cs)

/-- The sign that may open a numeral or, with `plus`, an exponent. -/
def sign (plus : Bool) : List Char → Bool × List Char
  | '-' :: cs => (true, cs)
  | '+' :: cs => if plus then (false, cs) else (false, '+' :: cs)
  | cs => (false, cs)

def exponentPart : Reader (Option (Bool × List Char))
  | [] => .ok (none, [])
  | c :: cs =>
    if c = 'e' ∨ c = 'E' then do
      let (negative, cs) := sign true cs
      let (ds, cs) ← digits cs
      return (some (negative, ds), cs)
    else .ok (none, c :: cs)

/-- Takes a numeral off the front, by its shape alone. -/
def scan : Reader Numeral := fun cs => do
  let (negative, cs) := sign false cs
  let (whole, cs) ← wholePart cs
  let (fraction, cs) ← fractionPart cs
  let (exponent, cs) ← exponentPart cs
  return ({ negative, whole, fraction, exponent }, cs)

/-- The number that a run of digits writes. -/
def ofDigits (ds : List Char) : Nat := Nat.ofDigitChars 10 ds 0

/-- Appends digits to a number as long as it fits 64 bits, and gives the digits left over. -/
def appendDigits (m : Nat) : List Char → Nat × List Char
  | [] => (m, [])
  | c :: cs =>
    if 10 * m + (c.toNat - '0'.toNat) < UInt64.size then
      appendDigits (10 * m + (c.toNat - '0'.toNat)) cs
    else (m, c :: cs)

/-- The nearest number of at most 53 significant bits; a tie goes to the even one. -/
def roundToDouble (n : Nat) : Nat :=
  let unit := Nat.pow 2 (n.log2 + 1 - 53)
  let q := n / unit
  let r := n % unit
  if unit < 2 * r ∨ (unit = 2 * r ∧ q % 2 = 1) then (q + 1) * unit else q * unit

/-- Whether `m * 10 ^ p`, each factor rounded to a double, rounds past the largest double. -/
def passesDouble (m : Nat) (p : Int) : Bool :=
  m ≠ 0 && (308 < p ||
    (0 ≤ p && Nat.pow 2 1024 - Nat.pow 2 970 ≤ roundToDouble m * roundToDouble (Nat.pow 10 p.toNat)))

/-- Whether the numeral is too large for a double. -/
def isHuge (n : Numeral) : Bool :=
  -- digits of the fraction are appended also where some of the whole part were dropped
  let (m, dropped) := appendDigits 0 n.whole
  let (m, left) := appendDigits m n.fraction
  let shift : Int := n.exponent.elim 0 fun (negative, ds) =>
    if negative then -(ofDigits ds : Int) else ofDigits ds
  passesDouble m (dropped.length - (n.fraction.length - left.length : Nat) + shift)

/-- The integer that the numeral writes, if it writes one that fits 64 bits. -/
def integer? (n : Numeral) : Option Int :=
  if n.fraction ≠ [] ∨ n.exponent.isSome then none
  else if n.negative then
    if 0 < ofDigits n.whole ∧ Int64.minValue.toInt ≤ -(ofDigits n.whole : Int) then
      some (-(ofDigits n.whole : Int))
    else none
  else if ofDigits n.whole < UInt64.size then some (ofDigits n.whole)
  else none

def value (n : Numeral) : Except Fault Number :=
  match n.integer? with
  | some i => .ok (.integer i)
  | none => if n.isHuge then .error .malformed else .ok .inexact

end Numeral

/-- Takes a number off the front of a text that starts with a minus sign or a digit. -/
def readNumber : Reader Number := fun cs => do
  let (n, cs) ← Numeral.scan cs
  return (← n.value, cs)

end RiscvLowering.Json
