import BlockStudio.Json.Reader

/-!
Decoding records from JSON trees. A record is written as an object with named members, or as an
array of its fields in order. Members with other names are ignored; a known name may not repeat. A
field that is absent may have a default; `null` is a value of its own and stands for absence only
where the field says so.
-/
namespace BlockStudio.Json
open BlockStudio.Number

/-- The fields of a record in order, each present or absent. -/
structure Fields where
  /-- Whether the record was written as an array. -/
  positional : Bool
  parts : List (Option Json)

/-- The first member of a name. -/
def member? (name : String) (members : List (String × Json)) : Option Json :=
  Table.search name members

/-- Whether no two members have the name. -/
def unrepeated (members : List (String × Json)) (name : String) : Bool :=
  (members.filter (·.1 == name)).length ≤ 1

/-- The fields of a record whose fields have the given names. -/
def fields? (names : List String) : Json → Option Fields
  | .object members =>
    if names.all (unrepeated members) then some ⟨false, names.map (member? · members)⟩ else none
  | .array elements =>
    if elements.length ≤ names.length then
      some ⟨true, elements.map some ++ List.replicate (names.length - elements.length) none⟩
    else none
  | _ => none

/-- The field at a place. -/
def Fields.at (f : Fields) (i : Nat) : Option Json := (f.parts[i]?).join

section Field
variable {α : Type}

/-- A field that must be there. -/
def Fields.required (f : Fields) (i : Nat) (decode : Json → Option α) : Option α :=
  (f.at i).bind decode

/-- A field that has a default. -/
def Fields.defaulted (f : Fields) (i : Nat) (default : α) (decode : Json → Option α) : Option α :=
  match f.at i with
  | none => some default
  | some j => decode j

/-- A field that a named record may leave out, and an array may not. -/
def Fields.optional (f : Fields) (i : Nat) (decode : Json → Option (Option α)) :
    Option (Option α) :=
  match f.at i with
  | none => if f.positional then none else some none
  | some j => decode j

/-- A value where `null` stands for none. -/
def orNull? (decode : Json → Option α) : Json → Option (Option α)
  | .null => some none
  | j => (decode j).map some

def list? (decode : Json → Option α) : Json → Option (List α)
  | .array elements => elements.mapM decode
  | _ => none

end Field

def text? : Json → Option String
  | .text s => some s
  | _ => none

def bool? : Json → Option Bool
  | .bool b => some b
  | _ => none

/-- A whole number of 64 bits, written without fraction or exponent. -/
def nat? : Json → Option Nat
  | .number (.nat n) => some n
  | _ => none

def double? : Json → Option Float
  | .number (.nat n) => some (doubleOfNat n)
  | .number (.negative n) => some (-doubleOfNat n)
  | .number (.double x) => some x
  | .number (.single x) => some (widen x)
  | _ => none

/-- A number as a single; a whole number is rounded once. -/
def single? : Json → Option Float32
  | .number (.nat n) => some (singleOfNat n)
  | .number (.negative n) => some (-singleOfNat n)
  | .number (.double x) => some (narrow x)
  | .number (.single x) => some x
  | _ => none

end BlockStudio.Json
