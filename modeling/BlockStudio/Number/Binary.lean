/-!
Finite binary numbers as an integer significand times a power of two, and the change of width
between double and single precision. `narrow` rounds to the nearest single (ties to even, overflow
is infinite); `widen` is exact, because every single is a double.
-/
namespace BlockStudio.Number
open Float.Model

/-- How a number stands on the real line: a signed finite magnitude `significand * 2 ^ exponent`, or
no number. -/
inductive Magnitude where
  | nan
  | infinite (negative : Bool)
  | finite (negative : Bool) (significand : Nat) (exponent : Int)
deriving Repr, DecidableEq

/-- Sign bit, exponent field and fraction field of a bit pattern with the given field widths. -/
def Magnitude.ofFields (exponentBits fractionBits : Nat) (bits : Nat) : Magnitude :=
  let fraction := bits % Nat.pow 2 fractionBits
  let field := bits / Nat.pow 2 fractionBits % Nat.pow 2 exponentBits
  let negative := bits / Nat.pow 2 (exponentBits + fractionBits) % 2 == 1
  let bias : Int := (Nat.pow 2 (exponentBits - 1) - 1 + fractionBits : Nat)
  if field = Nat.pow 2 exponentBits - 1 then
    if fraction = 0 then .infinite negative else .nan
  else if field = 0 then .finite negative fraction (1 - bias)
  else .finite negative (Nat.pow 2 fractionBits + fraction) (field - bias)

def Magnitude.ofDouble (x : Float) : Magnitude :=
  .ofFields 11 52 x.toBits.toNat

def Magnitude.ofSingle (x : Float32) : Magnitude :=
  .ofFields 8 23 x.toBits.toNat

def signOf (negative : Bool) : UnpackedFloat.Sign :=
  if negative then .negative else .positive

/-- The magnitude rounded to the nearest value of a format, a tie to the even significand. -/
def Magnitude.round (spec : Format) : Magnitude → UnpackedFloat
  | .nan => .notANumber
  | .infinite negative => .infinity (signOf negative)
  | .finite negative significand exponent =>
    if significand = 0 then .zero (signOf negative)
    else UnpackedFloat.round spec (signOf negative) significand exponent

/-- The single nearest to a double. -/
def narrow (x : Float) : Float32 :=
  .ofBits (.ofBitVec
    ((UnpackedFloat.pack Format.binary32 ((Magnitude.ofDouble x).round Format.binary32))))

/-- The double equal to a single. -/
def widen (x : Float32) : Float :=
  .ofBits (.ofBitVec
    ((UnpackedFloat.pack Format.binary64 ((Magnitude.ofSingle x).round Format.binary64))))

/-- The single nearest to a whole number, rounded once. -/
def singleOfNat (n : Nat) : Float32 :=
  .ofBits (.ofBitVec
    ((UnpackedFloat.pack Format.binary32 ((Magnitude.finite false n 0).round Format.binary32))))

/-- The double nearest to a whole number. -/
def doubleOfNat (n : Nat) : Float :=
  .ofBits (.ofBitVec
    ((UnpackedFloat.pack Format.binary64 ((Magnitude.finite false n 0).round Format.binary64))))

/-- The whole number at most `2 ^ 64 - 1` that a double truncates to; what is below zero, or no
number, gives zero. -/
def toNatSaturating (x : Float) : Nat :=
  x.toUInt64.toNat

end BlockStudio.Number
