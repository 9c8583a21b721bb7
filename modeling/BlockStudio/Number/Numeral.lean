import BlockStudio.Number.Counter

/-!
Numerals in text and the doubles they denote. A numeral has a sign, whole digits, fraction digits
and an exponent; `Numeral.read?` accepts a whole text as one numeral and `Numeral.value` rounds it
to the nearest double. The words for infinity and for "not a number" are read in any letter case.
-/
namespace BlockStudio.Number

/-- The number that a list of decimal digits spells. -/
def ofDigits (ds : List Char) : Nat :=
  ds.foldl (fun n c => 10 * n + (c.toNat - '0'.toNat)) 0

/-- The digits at the front, and what follows them. -/
def spanDigits (cs : List Char) : List Char × List Char :=
  (cs.takeWhile Char.isDigit, cs.dropWhile Char.isDigit)

theorem spanDigits_append (cs : List Char) : (spanDigits cs).1 ++ (spanDigits cs).2 = cs :=
  List.takeWhile_append_dropWhile

theorem spanDigits_length (cs : List Char) : (spanDigits cs).2.length ≤ cs.length := by
  have := congrArg List.length (spanDigits_append cs)
  simp only [List.length_append] at this
  omega

/-- A sign at the front: whether it is a minus, and what follows it. -/
def spanSign : List Char → Bool × List Char
  | '+' :: rest => (false, rest)
  | '-' :: rest => (true, rest)
  | cs => (false, cs)

/-- The exponent of a numeral: its sign and its digits. -/
structure Exponent where
  negative : Bool
  digits : List Char
deriving Repr, DecidableEq

structure Numeral where
  whole : List Char
  fraction : List Char
  exponent : Option Exponent
deriving Repr, DecidableEq

namespace Numeral

/-- The power of ten that the written exponent asks for. -/
def shift (n : Numeral) : Int :=
  match n.exponent with
  | none => 0
  | some e => if e.negative then -(ofDigits e.digits : Int) else ofDigits e.digits

/-- The double nearest to `digits * 10 ^ e`. -/
def nearest (digits : Nat) (e : Int) : Float :=
  .ofScientific digits (e < 0) e.natAbs

def value (n : Numeral) : Float :=
  nearest (ofDigits (n.whole ++ n.fraction)) (n.shift - n.fraction.length)

/-- A fraction after a point, which may be empty. -/
def spanFraction : List Char → List Char × List Char
  | '.' :: rest => spanDigits rest
  | cs => ([], cs)

/-- An exponent that ends the text: the letter, an optional sign, at least one digit. -/
def readExponent? : List Char → Option (Option Exponent)
  | [] => some none
  | c :: rest =>
    if c = 'e' ∨ c = 'E' then
      let (negative, body) := spanSign rest
      let (digits, tail) := spanDigits body
      if digits.isEmpty || !tail.isEmpty then none else some (some ⟨negative, digits⟩)
    else none

/-- A whole text as a numeral without sign. At least one digit stands before or after the point. -/
def read? (cs : List Char) : Option Numeral :=
  let (whole, rest) := spanDigits cs
  let (fraction, tail) := spanFraction rest
  if whole.isEmpty && fraction.isEmpty then none
  else (readExponent? tail).map fun e => ⟨whole, fraction, e⟩

end Numeral

/-- The words that denote a value without digits. -/
def namedValue? (cs : List Char) : Option Float :=
  let word := cs.map Char.toLower
  if word = "inf".toList ∨ word = "infinity".toList then some (1 / 0)
  else if word = "nan".toList then some (0 / 0)
  else none

/-- The double that a text denotes: an optional sign, then a numeral or a named value, and nothing
else. -/
def readDouble? (s : String) : Option Float :=
  let (negative, body) := spanSign s.toList
  let magnitude := ((Numeral.read? body).map Numeral.value).or (namedValue? body)
  magnitude.map fun x => if negative then -x else x

/-- The whole number below `2 ^ 64` that a text denotes: an optional plus sign, then digits, and
nothing else. -/
def readCounter? (s : String) : Option Nat :=
  let body := match s.toList with
    | '+' :: rest => rest
    | cs => cs
  let n := ofDigits body
  if !body.isEmpty && body.all Char.isDigit && n ≤ counterMax then some n else none

end BlockStudio.Number
