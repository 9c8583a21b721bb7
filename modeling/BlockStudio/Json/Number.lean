import BlockStudio.Json.Basic
import BlockStudio.Number.Binary
import BlockStudio.Number.Numeral

/-!
The value of a number in a document. A whole number that fits 64 bits is exact. Every other number
is a float: its significand takes digits while it fits 64 bits, later digits only move the exponent,
and one multiplication or division by a power of ten gives the double. A number above the greatest
double has no value.
-/
namespace BlockStudio.Json.Number
open BlockStudio.Number

def wordMax : Nat := 0xffffffffffffffff

/-- Takes whole digits while they fit; gives the significand and the count of digits left out. -/
def takeWhole : Nat → List Char → Nat × Nat
  | n, [] => (n, 0)
  | n, c :: cs =>
    let n' := 10 * n + ofDigits [c]
    if n' ≤ wordMax then takeWhole n' cs else (n, cs.length + 1)

/-- Takes fraction digits while they fit; gives the significand and the count of digits taken. -/
def takeFraction : Nat → List Char → Nat × Nat
  | n, [] => (n, 0)
  | n, c :: cs =>
    let n' := 10 * n + ofDigits [c]
    if n' ≤ wordMax then
      let (m, k) := takeFraction n' cs
      (m, k + 1)
    else (n, 0)

/-- The double nearest to `10 ^ k`. -/
def powerOfTen (k : Nat) : Float := .ofScientific 1 false k

/-- Divides by `10 ^ k`, at most `308` powers at a time; zero stays zero. -/
def scaleDown (x : Float) (k : Nat) : Float :=
  if k ≤ 308 then x / powerOfTen k
  else if x == 0 then x
  else scaleDown (x / powerOfTen 308) (k - 308)
termination_by k

/-- The double for `significand * 10 ^ exponent`, if it is in range. -/
def scaled? (significand : Nat) (exponent : Int) : Option Float :=
  let x := doubleOfNat significand
  if exponent < 0 then some (scaleDown x exponent.natAbs)
  else if exponent ≤ 308 then
    let y := x * powerOfTen exponent.natAbs
    if y.isInf then none else some y
  else if x == 0 then some x else none

/-- Exponents of `2 ^ 31` and more are never added up: they overflow, or leave nothing. -/
def hugeExponent : Nat := 0x80000000

def signed (negative : Bool) (x : Float) : Float := if negative then -x else x

/-- A number that is not exact: the float, if it is in range. -/
def float? (negative : Bool) (significand : Nat) (shift : Int) (exponent : Option Exponent) :
    Option Float :=
  match exponent with
  | none => (scaled? significand shift).map (signed negative)
  | some e =>
    let k := ofDigits e.digits
    if hugeExponent ≤ k then
      if significand ≠ 0 ∧ !e.negative then none else some (signed negative 0)
    else (scaled? significand (shift + if e.negative then -(k : Int) else k)).map (signed negative)

/-- The number of a numeral with its sign. Minus zero is a float. -/
def ofNumeral? (negative : Bool) (n : Numeral) : Option Number :=
  let (whole, dropped) := takeWhole 0 n.whole
  if n.fraction.isEmpty && n.exponent.isNone && dropped = 0 then
    if !negative then some (.nat whole)
    else if whole = 0 ∨ 0x8000000000000000 < whole then some (.double (-doubleOfNat whole))
    else some (.negative whole)
  else
    let (significand, taken) := takeFraction whole n.fraction
    let shift : Int := dropped - taken
    (float? negative significand shift n.exponent).map .double

end BlockStudio.Json.Number
