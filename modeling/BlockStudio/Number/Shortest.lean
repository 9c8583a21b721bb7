import BlockStudio.Number.Binary

/-!
The shortest decimal of a binary number. A decimal denotes a binary number when it lies in the
interval of reals that round to it; among those decimals the one on the coarsest grid of tens is
taken, and on that grid the nearest, a tie going as asked for. All comparisons are between whole
numbers, so the choice is exact.
-/
namespace BlockStudio.Number

/-- The value `digits * 10 ^ exponent`. -/
structure Decimal where
  digits : Nat
  exponent : Int
deriving Repr, DecidableEq

/-- Which neighbour a number half way between two takes. -/
inductive Tie where
  | toEven
  /-- Away from zero. -/
  | up
deriving Repr, DecidableEq

/-- The neighbour that a number half way between `g` and `g + 1` takes. -/
def Tie.choose (t : Tie) (g : Nat) : Nat :=
  match t with
  | .toEven => g + g % 2
  | .up => g + 1

/-- The positive part of an exponent, as a count. -/
def above (e : Int) : Nat := e.toNat

/-- The negative part of an exponent, as a count. -/
def below (e : Int) : Nat := (-e).toNat

/-- A positive binary number with the interval of reals that round to it. In units of
`2 ^ (exponent - 2)` the number is `4 * significand` and the interval reaches two units up and
`reach` units down. Its ends belong to it when the significand is even. -/
structure Rounding where
  significand : Nat
  exponent : Int
  reach : Nat

namespace Rounding

/-- Numerator of one unit counted in steps of `10 ^ k`. -/
def unit (r : Rounding) (k : Int) : Nat := Nat.pow 2 (above (r.exponent - 2)) * Nat.pow 10 (below k)

/-- Denominator of one unit counted in steps of `10 ^ k`. -/
def step (r : Rounding) (k : Int) : Nat := Nat.pow 2 (below (r.exponent - 2)) * Nat.pow 10 (above k)

/-- Whether `g * 10 ^ k` rounds to the number. -/
def contains (r : Rounding) (k : Int) (g : Nat) : Bool :=
  let lo := (4 * r.significand - r.reach) * r.unit k
  let hi := (4 * r.significand + 2) * r.unit k
  let x := g * r.step k
  if r.significand % 2 = 0 then lo ≤ x && x ≤ hi else lo < x && x < hi

/-- The nearer of the two neighbours of the number on the grid of `10 ^ k`, among those that round
to it. -/
def onGrid? (r : Rounding) (tie : Tie) (k : Int) : Option Nat :=
  let v := 4 * r.significand * r.unit k
  let g := v / r.step k
  match r.contains k g, r.contains k (g + 1) with
  | false, false => none
  | true, false => some g
  | false, true => some (g + 1)
  | true, true =>
    match compare (v - g * r.step k) ((g + 1) * r.step k - v) with
    | .lt => some g
    | .gt => some (g + 1)
    | .eq => some (tie.choose g)

/-- An exponent of ten that lies above the number. -/
def ceiling (r : Rounding) : Int :=
  (r.significand.log2 + r.exponent + 3) * 30103 / 100000 + 1

/-- The decimal on the coarsest grid that has one. Seventeen digits always suffice for a double, so
the search stops within the listed grids. -/
def shortest (r : Rounding) (tie : Tie) : Decimal :=
  let found := (List.range 24).findSome? fun i =>
    let k := r.ceiling - (i : Nat)
    (r.onGrid? tie k).map fun g => Decimal.mk g k
  found.getD ⟨0, 0⟩

end Rounding

/-- The interval of a finite double: below a power of two the next double is half as far. -/
def Rounding.ofDouble (significand : Nat) (exponent : Int) : Rounding :=
  ⟨significand, exponent, if significand = 0x10000000000000 ∧ -1074 < exponent then 1 else 2⟩

/-- The interval of a finite single. -/
def Rounding.ofSingle (significand : Nat) (exponent : Int) : Rounding :=
  ⟨significand, exponent, if significand = 0x800000 ∧ -149 < exponent then 1 else 2⟩

end BlockStudio.Number
