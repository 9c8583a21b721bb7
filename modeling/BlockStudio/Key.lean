import BlockStudio.Text.Blank

/-!
Names of keys. Scripts and the keyboard name a key in lower case; the arrow keys have their
direction as name and the space bar is `space`.
-/
namespace BlockStudio.Key

/-- The direction of an arrow key; any other name is kept. -/
def withoutArrow (name : String) : String :=
  match Text.afterWord? "arrow".toList name.toList with
  | some (c :: rest) => String.ofList (c :: rest)
  | _ => name

def normalize (raw : String) : String :=
  if raw = " " then "space"
  else
    let name := Text.lowerAscii (Text.trim raw)
    if name = "spacebar" ∨ name = "space" then "space"
    else if name = "return" then "enter"
    else withoutArrow name

end BlockStudio.Key
