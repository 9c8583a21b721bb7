import BlockStudio.Number.Shortest

/-!
Styles of numbers as text. A style says when the decimal point is written in place and whether a
whole number keeps a fraction; the digits come from the shortest decimal. `rounded` writes a number
without a fraction.
-/
namespace BlockStudio.Number

/-- How a decimal is written. The point stands after the first `p` digits; it is written in place
when `p` lies in the window, else the number takes an exponent. -/
structure Style where
  /-- Lower end (left out) and upper end (kept) of the window; none means that the point is always
  in place. -/
  window : Option (Int × Int)
  /-- What follows the digits of a whole number. -/
  wholeTail : String
  /-- Which of two equally near decimals is written. -/
  tie : Tie

/-- Labels write every digit in place. -/
def Style.plain : Style := ⟨none, "", .up⟩

/-- Documents write doubles in place from `0.00001` up to sixteen digits before the point. -/
def Style.document : Style := ⟨some (-5, 16), ".0", .toEven⟩

/-- Documents write singles in place from `0.000001` up to thirteen digits before the point. -/
def Style.documentSingle : Style := ⟨some (-6, 13), ".0", .toEven⟩

def Style.inPlace (s : Style) (point : Int) : Bool :=
  match s.window with
  | none => true
  | some (lo, hi) => lo < point && point ≤ hi

def digitText (n : Nat) : String := String.ofList (Nat.toDigits 10 n)

def zeros (n : Nat) : String := String.ofList (List.replicate n '0')

/-- Digits with the point in place. -/
def Style.placed (s : Style) (digits : List Char) (point : Int) : String :=
  if point ≤ 0 then "0." ++ zeros (below point) ++ String.ofList digits
  else if digits.length ≤ point then
    String.ofList digits ++ zeros (above (point - digits.length)) ++ s.wholeTail
  else
    String.ofList (digits.take (above point)) ++ "." ++ String.ofList (digits.drop (above point))

/-- Digits with an exponent: one digit before the point, and the exponent with its sign. -/
def scientific (digits : List Char) (point : Int) : String :=
  let e := point - 1
  let mantissa := match digits with
    | [] => ""
    | [d] => String.ofList [d]
    | d :: rest => String.ofList [d] ++ "." ++ String.ofList rest
  mantissa ++ "e" ++ (if e < 0 then "-" else "+") ++ digitText e.natAbs

def Style.decimal (s : Style) (d : Decimal) : String :=
  let digits := Nat.toDigits 10 d.digits
  let point := digits.length + d.exponent
  if s.inPlace point then s.placed digits point else scientific digits point

/-- The text of a magnitude, where `rounding` gives the interval of a positive number. -/
def Style.magnitude (s : Style) (rounding : Nat → Int → Rounding) : Magnitude → String
  | .nan => "NaN"
  | .infinite negative => if negative then "-inf" else "inf"
  | .finite negative significand exponent =>
    (if negative then "-" else "") ++
      (if significand = 0 then "0" ++ s.wholeTail
       else s.decimal ((rounding significand exponent).shortest s.tie))

def Style.double (s : Style) (x : Float) : String :=
  s.magnitude .ofDouble (.ofDouble x)

def Style.single (s : Style) (x : Float32) : String :=
  s.magnitude .ofSingle (.ofSingle x)

/-- The whole number nearest to `significand * 2 ^ exponent`, a half going to the even one. -/
def nearestWhole (significand : Nat) (exponent : Int) : Nat :=
  let unit := Nat.pow 2 (below exponent)
  let v := significand * Nat.pow 2 (above exponent)
  let q := v / unit
  match compare (2 * (v % unit)) unit with
  | .lt => q
  | .gt => q + 1
  | .eq => Tie.toEven.choose q

/-- A number without its fraction, rounded to the nearest whole number; the sign is kept. -/
def rounded (x : Float) : String :=
  match Magnitude.ofDouble x with
  | .nan => "NaN"
  | .infinite negative => if negative then "-inf" else "inf"
  | .finite negative significand exponent =>
    (if negative then "-" else "") ++ digitText (nearestWhole significand exponent)

example : Style.plain.double 1e21 = "1000000000000000000000" := by decide +kernel
example : Style.document.double 1e-6 = "1e-6" := by decide +kernel

end BlockStudio.Number
