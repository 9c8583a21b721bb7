/-!
Points, rectangles and boxes of the plane in single precision, the y axis pointing down. The corners
of a rectangle are sorted when it is built from them; both of its edges belong to it. Boxes that
only touch do not overlap.
-/
namespace BlockStudio

structure Point where
  x : Float32
  y : Float32
deriving Repr, DecidableEq

namespace Point

def zero : Point := ⟨0, 0⟩

instance : Add Point := ⟨fun a b => ⟨a.x + b.x, a.y + b.y⟩⟩
instance : Sub Point := ⟨fun a b => ⟨a.x - b.x, a.y - b.y⟩⟩

def scale (p : Point) (k : Float32) : Point := ⟨p.x * k, p.y * k⟩

def shrink (p : Point) (k : Float32) : Point := ⟨p.x / k, p.y / k⟩

def length (p : Point) : Float32 := (p.x * p.x + p.y * p.y).sqrt

def distance (a b : Point) : Float32 := (a - b).length

end Point

/-- The lesser of two numbers; a number is preferred to what is no number. -/
def lesser (a b : Float32) : Float32 :=
  if a.isNaN then b else if b.isNaN then a else if b < a then b else a

/-- The greater of two numbers; a number is preferred to what is no number. -/
def greater (a b : Float32) : Float32 :=
  if a.isNaN then b else if b.isNaN then a else if a < b then b else a

structure Rect where
  min : Point
  max : Point
deriving Repr, DecidableEq

namespace Rect

/-- The rectangle with two given corners, in whatever order. -/
def ofCorners (p q : Point) : Rect :=
  ⟨⟨lesser p.x q.x, lesser p.y q.y⟩, ⟨greater p.x q.x, greater p.y q.y⟩⟩

def ofSides (x y x' y' : Float32) : Rect := ofCorners ⟨x, y⟩ ⟨x', y'⟩

def contains (r : Rect) (p : Point) : Bool :=
  r.min.x ≤ p.x && r.min.y ≤ p.y && p.x ≤ r.max.x && p.y ≤ r.max.y

def width (r : Rect) : Float32 := r.max.x - r.min.x

def size (r : Rect) : Point := r.max - r.min

def center (r : Rect) : Point := (r.min + r.max).scale 0.5

def topCenter (r : Rect) : Point := ⟨r.center.x, r.min.y⟩

def bottomCenter (r : Rect) : Point := ⟨r.center.x, r.max.y⟩

end Rect

/-- A box given by its top left corner and its size. -/
structure Box where
  x : Float32
  y : Float32
  w : Float32
  h : Float32
deriving Repr, DecidableEq

namespace Box

def zero : Box := ⟨0, 0, 0, 0⟩

/-- Boxes that only share an edge do not overlap. -/
def overlaps (a b : Box) : Bool :=
  a.x < b.x + b.w && a.x + a.w > b.x && a.y < b.y + b.h && a.y + a.h > b.y

def toRect (b : Box) : Rect := .ofSides b.x b.y (b.x + b.w) (b.y + b.h)

end Box

end BlockStudio
