import BlockStudio.Geometry
import BlockStudio.Number.Binary

/-!
The window and the coordinates in it. On the screen the origin is the top left corner and the y axis
points down; for drawing the origin is the centre and the y axis points up.
-/
namespace BlockStudio

structure Window where
  width : Nat
  height : Nat
deriving Repr, DecidableEq

namespace Window

def standard : Window := ⟨1280, 720⟩

/-- The greatest size in pixels. -/
def sizeMax : Nat := 0xffffffff

/-- A size in whole pixels. -/
def pixels (size : Float32) : Nat := min (Number.toNatSaturating (Number.widen size)) sizeMax

/-- A window of a given size; the size is cut to whole pixels. -/
def ofSize (width height : Float32) : Window := ⟨pixels width, pixels height⟩

/-- A cursor in the window or on its edge. -/
def cursor? (w : Window) (p : Point) : Option Point :=
  let inside (x : Float32) (size : Nat) : Bool := x ≥ 0 && Number.widen x ≤ Number.doubleOfNat size
  if inside p.x w.width && inside p.y w.height then some p else none

/-- The drawing coordinates of a point of the screen. -/
def toDrawing (w : Window) (p : Point) : Point :=
  ⟨p.x - Number.singleOfNat w.width * 0.5, Number.singleOfNat w.height * 0.5 - p.y⟩

end Window

end BlockStudio
