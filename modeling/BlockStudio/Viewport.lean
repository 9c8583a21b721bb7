import BlockStudio.Geometry

/-!
The view of the canvas: a canvas point is scaled by the zoom and moved by the pan to its place on
the screen. The zoom stays between two bounds.
-/
namespace BlockStudio

structure Viewport where
  /-- The place of the canvas origin before panning. -/
  origin : Point
  pan : Point
  zoom : Float32
  minZoom : Float32
  maxZoom : Float32
deriving Repr

namespace Viewport

def ofBounds (origin : Point) (minZoom maxZoom : Float32) : Viewport :=
  ⟨origin, .zero, 1, minZoom, maxZoom⟩

def toCanvas (v : Viewport) (screen : Point) : Point := (screen - v.origin - v.pan).shrink v.zoom

def toScreen (v : Viewport) (canvas : Point) : Point := v.origin + v.pan + canvas.scale v.zoom

def rectToScreen (v : Viewport) (r : Rect) : Rect :=
  .ofCorners (v.toScreen r.min) (v.toScreen r.max)

/-- Moves the view; a step that is no finite number does nothing. -/
def panBy (v : Viewport) (dx dy : Float32) : Viewport :=
  if dx.isFinite && dy.isFinite then { v with pan := v.pan + ⟨dx, dy⟩ } else v

/-- The number in a range that is nearest to `x`. -/
def clamp (x lo hi : Float32) : Float32 :=
  let x := if x < lo then lo else x
  if x > hi then hi else x

/-- Changes the zoom within its bounds; none when no zoom lies between the bounds. A step that is no
finite number does nothing. -/
def zoomBy? (v : Viewport) (delta : Float32) : Option Viewport :=
  if !delta.isFinite then some v
  else if v.minZoom ≤ v.maxZoom then
    some { v with zoom := clamp (v.zoom + delta) v.minZoom v.maxZoom }
  else none

end Viewport

end BlockStudio
