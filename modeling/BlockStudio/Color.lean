import BlockStudio.Number.Binary

/-!
Colours of objects. A colour is either the plain white an object starts with or four channels of one
byte each, read from hexadecimal text of three, four, six or eight digits.
-/
namespace BlockStudio

inductive Color where
  | white
  | rgba (r g b a : UInt8)
deriving Repr, DecidableEq

inductive Color.Error where
  /-- The text has a length that no colour has. -/
  | length
  /-- A character is no hexadecimal digit. -/
  | digit
deriving Repr, DecidableEq

namespace Color

def Error.message : Error → String
  | .length => "Length"
  | .digit => "Parse(ParseIntError \x7b kind: InvalidDigit \x7d)"

def hexDigit? (c : Char) : Option Nat :=
  if c.isDigit then some (c.toNat - '0'.toNat)
  else if 'a' ≤ c ∧ c ≤ 'f' then some (c.toNat - 'a'.toNat + 10)
  else if 'A' ≤ c ∧ c ≤ 'F' then some (c.toNat - 'A'.toNat + 10)
  else none

/-- The number that hexadecimal digits spell, after an optional plus sign. -/
def readHex? (cs : List Char) : Option Nat :=
  let body := match cs with
    | '+' :: rest => rest
    | cs => cs
  if body.isEmpty then none
  else (body.mapM hexDigit?).map fun ds => ds.foldl (fun n d => 16 * n + d) 0

/-- The `i`-th nibble from the right, written twice. -/
def doubled (n i : Nat) : UInt8 := .ofNat (n / Nat.pow 16 i % 16 * 17)

def byte (n i : Nat) : UInt8 := .ofNat (n / Nat.pow 256 i % 256)

/-- A colour from text, after one optional `#`. The length is counted in bytes. -/
def ofText (s : String) : Except Error Color :=
  let cs := match s.toList with
    | '#' :: rest => rest
    | cs => cs
  let read (build : Nat → Color) : Except Error Color :=
    match readHex? cs with
    | some n => .ok (build n)
    | none => .error .digit
  match (String.ofList cs).utf8ByteSize with
  | 3 => read fun n => .rgba (doubled n 2) (doubled n 1) (doubled n 0) 255
  | 4 => read fun n => .rgba (doubled n 3) (doubled n 2) (doubled n 1) (doubled n 0)
  | 6 => read fun n => .rgba (byte n 2) (byte n 1) (byte n 0) 255
  | 8 => read fun n => .rgba (byte n 3) (byte n 2) (byte n 1) (byte n 0)
  | _ => .error .length

/-- The strength of a channel between zero and one. -/
def strength (channel : UInt8) : Float32 := channel.toFloat32 / 255

end Color

end BlockStudio
