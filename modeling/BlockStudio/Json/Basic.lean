/-!
JSON trees. Members of an object stay in the order they were written and may repeat a name. A part
of a text that is well formed but has no value (a number out of range, half a surrogate pair, a
container nested too deep) is kept as `unreadable`, because a reader that skips the part does not
care.
-/
namespace BlockStudio

/-- A number of a document: a whole number of 64 bits, or a float. A single keeps its width for
printing. -/
inductive Json.Number where
  | nat (n : Nat)
  /-- The whole number `-n`, where `n` is positive. -/
  | negative (n : Nat)
  | double (x : Float)
  | single (x : Float32)
deriving Repr, DecidableEq

inductive Json where
  | null
  | bool (b : Bool)
  | number (n : Json.Number)
  | text (s : String)
  | array (elements : List Json)
  | object (members : List (String × Json))
  | unreadable
deriving Repr

namespace Json

instance : Inhabited Json := ⟨.null⟩

/-- Containers may be nested this deep. -/
def depthLimit : Nat := 127

mutual

/-- Whether every part of the tree has a value. -/
def isReadable : Json → Bool
  | .array elements => elementsReadable elements
  | .object members => membersReadable members
  | .unreadable => false
  | _ => true

def elementsReadable : List Json → Bool
  | [] => true
  | j :: rest => j.isReadable && elementsReadable rest

def membersReadable : List (String × Json) → Bool
  | [] => true
  | (_, j) :: rest => j.isReadable && membersReadable rest

end

end Json

end BlockStudio
