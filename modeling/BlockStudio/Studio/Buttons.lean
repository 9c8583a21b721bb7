/-!
Buttons of a device: which are held, and which went down or up since the last frame. Pressing a
button that is held, or releasing one that is not, does nothing.
-/
namespace BlockStudio

structure Buttons (α : Type) where
  held : List α
  justPressed : List α
  justReleased : List α

inductive MouseButton where
  | left
  | right
  | middle
deriving Repr, DecidableEq

namespace Buttons

variable {α : Type} [DecidableEq α]

def none : Buttons α := ⟨[], [], []⟩

def isHeld (b : Buttons α) (x : α) : Bool := b.held.contains x

def wentDown (b : Buttons α) (x : α) : Bool := b.justPressed.contains x

def wentUp (b : Buttons α) (x : α) : Bool := b.justReleased.contains x

def press (b : Buttons α) (x : α) : Buttons α :=
  if b.isHeld x then b else { b with held := x :: b.held, justPressed := x :: b.justPressed }

def release (b : Buttons α) (x : α) : Buttons α :=
  if b.isHeld x then { b with held := b.held.filter (· ≠ x), justReleased := x :: b.justReleased }
  else b

/-- A frame has seen what went down and up. -/
def settle (b : Buttons α) : Buttons α := { b with justPressed := [], justReleased := [] }

end Buttons

end BlockStudio
