import BlockStudio.Editor

/-!
What the editor shows: the palette, every placed block and slot at its place on the screen, the
dragged group and a mark where it would snap.
-/
namespace BlockStudio

structure BlockView where
  id : BlockId
  type : String
  category : Option Category
  label : String
  rect : Rect
  depth : Nat

structure EditorView where
  palette : List PaletteEntry
  blocks : List BlockView
  slots : List Rect
  dragging : List BlockView
  snapMarker : Option Point
  variableNames : List String
  zoom : Float32

namespace Editor

/-- The view of a block with a given box on the canvas. -/
def viewBlock (e : Editor) (b : PlacedBlock) (canvas : Rect) (depth : Nat) : BlockView :=
  let d := definition? b.type
  ⟨b.id, b.type, d.map (·.category), (d.map (·.renderLabel b.values)).getD b.type,
    e.viewport.rectToScreen canvas, depth⟩

/-- The views of a dragged list of blocks below each other. -/
def viewStack (e : Editor) (corner : Point) : List PlacedBlock → List BlockView
  | [] => []
  | b :: rest =>
    let bottom := corner.y + Layout.height b
    e.viewBlock b (.ofSides corner.x corner.y (corner.x + Layout.blockWidth) bottom) 0
      :: e.viewStack ⟨corner.x, bottom⟩ rest

/-- The point of the canvas at which a group snaps. -/
def snapPoint? (l : Layout) : SnapTarget → Option Point
  | .appendAfter id => (l.block? id).map (·.rect.bottomCenter)
  | .prependBefore id => (l.block? id).map (·.rect.topCenter)
  | .nest owner slot => ((l.slotsOf owner).find? (·.slot == slot)).map (·.rect.center)

def view (e : Editor) : EditorView where
  palette := e.paletteEntries
  blocks :=
    e.layout.blocks.filterMap fun b => (e.graph.find? b.id).map fun block =>
      e.viewBlock block b.rect b.depth
  slots := e.layout.slots.map fun s => e.viewport.rectToScreen s.rect
  dragging := match e.drag with
    | none => []
    | some d => e.viewStack (e.payloadCorner d d.pointer) d.blocks
  snapMarker :=
    ((e.drag.bind (·.snap)).bind fun c => snapPoint? e.layout c.target).map e.viewport.toScreen
  variableNames := e.graph.variableNames
  zoom := e.viewport.zoom

end Editor

end BlockStudio
