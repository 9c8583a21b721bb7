import BlockStudio.Graph.Rebuild
import BlockStudio.Label
import BlockStudio.Snap
import BlockStudio.Viewport

/-!
The editor: the program on the canvas, the view of it, the palette of new blocks and the group of
blocks that is being dragged. A drag takes blocks out of the program, and its end puts them back in
one place or throws them away; an operation that is refused changes nothing.
-/
namespace BlockStudio

structure EditorConfig where
  /-- The greatest distance on the screen at which a group snaps. -/
  snapThreshold : Float32
  minZoom : Float32
  maxZoom : Float32
  palette : Rect
  canvas : Rect
  trash : Rect

namespace EditorConfig

def standard : EditorConfig :=
  ⟨40, 0.25, 3, .ofSides 0 0 230 720, .ofSides 230 0 1280 720, .ofSides 1180 620 1270 710⟩

end EditorConfig

inductive DragSource where
  | palette (type : String)
  | placed (id : BlockId)
deriving Repr, DecidableEq

inductive DropOutcome where
  | discarded
  | snapped (target : SnapTarget)
  | newChain (id : ChainId)
deriving Repr, DecidableEq

/-- A group of blocks that follows the pointer. -/
structure Drag where
  blocks : List PlacedBlock
  /-- The pointer relative to the top left corner of the group, on the canvas. -/
  grabOffset : Point
  pointer : Point
  snap : Option SnapCandidate

structure PaletteEntry where
  kind : BlockKind
  label : String
  rect : Rect

structure Editor where
  config : EditorConfig
  graph : Graph
  viewport : Viewport
  objects : List String
  drag : Option Drag

inductive Editor.Error where
  | dragInProgress
  | notOnCanvas (id : BlockId)
  | notDetached (id : BlockId)
  | unknownBlock (id : BlockId)
  | noField (type key : String)
  | badValue (type key value : String)
  | graph (e : Graph.Error)
deriving Repr, DecidableEq

namespace Editor

def Error.message : Error → String
  | .dragInProgress => "A drag is already in progress"
  | .notOnCanvas id => "Block " ++ Number.digitText id ++ " is not on the canvas"
  | .notDetached id => "Block " ++ Number.digitText id ++ " could not be detached"
  | .unknownBlock id => "Unknown block " ++ Number.digitText id
  | .noField type key => "Block '" ++ type ++ "' has no field '" ++ key ++ "'"
  | .badValue type key value => "Value '" ++ value ++ "' is not valid for " ++ type ++ "." ++ key
  | .graph e => e.message

def ofConfig (config : EditorConfig) : Editor :=
  ⟨config, .empty, .ofBounds config.canvas.min config.minZoom config.maxZoom, [], none⟩

def standard : Editor := ofConfig .standard

def isDragging (e : Editor) : Bool := e.drag.isSome

def snapTarget? (e : Editor) : Option SnapTarget := (e.drag.bind (·.snap)).map (·.target)

def layout (e : Editor) : Layout := .ofGraph e.graph

def palettePadding : Float32 := 10
def paletteGap : Float32 := 6
def paletteCategoryGap : Float32 := 18

/-- The palette entries of some kinds below each other from `y` on, and the place after them. -/
def stackEntries (left width : Float32) : Float32 → List BlockKind → List PaletteEntry × Float32
  | y, [] => ([], y)
  | y, k :: rest =>
    let entry : PaletteEntry :=
      ⟨k, k.definition.defaultLabel, .ofSides left y (left + width) (y + Layout.blockHeight)⟩
    let (entries, y) := stackEntries left width (y + (Layout.blockHeight + paletteGap)) rest
    (entry :: entries, y)

/-- The palette entries of some categories, with a gap after each category. -/
def stackCategories (left width : Float32) : Float32 → List Category → List PaletteEntry
  | _, [] => []
  | y, c :: rest =>
    let (entries, y) := stackEntries left width y (BlockKind.inCategory c)
    entries ++ stackCategories left width (y + paletteCategoryGap) rest

/-- The palette: every kind once, category by category. -/
def paletteEntries (e : Editor) : List PaletteEntry :=
  let area := e.config.palette
  stackCategories (area.min.x + palettePadding) (greater (area.width - 2 * palettePadding) 1)
    (area.min.y + palettePadding) Category.all

/-- What a press at a point of the screen picks up: a kind from the palette, or the innermost placed
block. -/
def pick? (e : Editor) (screen : Point) : Option DragSource :=
  if e.config.palette.contains screen then
    (e.paletteEntries.find? (·.rect.contains screen)).map fun entry => .palette entry.kind.name
  else if e.config.canvas.contains screen then
    (e.layout.hit? (e.viewport.toCanvas screen)).map fun b => .placed b.id
  else none

/-- The top left corner of a dragged group on the canvas when the pointer is at a point. -/
def payloadCorner (e : Editor) (d : Drag) (pointer : Point) : Point :=
  e.viewport.toCanvas pointer - d.grabOffset

/-- The outline of a dragged group when the pointer is at a point. -/
def payload (e : Editor) (d : Drag) (pointer : Point) : Payload :=
  ⟨e.payloadCorner d pointer, Layout.listHeight d.blocks, (d.blocks.head?).any (·.isHat)⟩

def threshold (e : Editor) : Float32 := e.config.snapThreshold / e.viewport.zoom

/-- The drag with the pointer moved to a point. -/
def moveDrag (e : Editor) (pointer : Point) (d : Drag) : Drag :=
  { d with pointer, snap := Snap.resolve? e.layout (e.payload d pointer) e.threshold }

def updateDrag (e : Editor) (pointer : Point) : Editor :=
  { e with drag := e.drag.map (e.moveDrag pointer) }

/-- Where the pointer grabs a new block of a type; a type that the palette lacks is grabbed at its
corner. -/
def paletteGrab (e : Editor) (type : String) (pointer : Point) : Point :=
  let corner := ((e.paletteEntries.find? (·.kind.name == type)).map (·.rect.min)).getD pointer
  (pointer - corner).shrink e.viewport.zoom

/-- The blocks that a drag picks up, where the pointer grabs them, and the graph that remains. -/
def pickUp (e : Editor) (source : DragSource) (pointer : Point) :
    Except Error (List PlacedBlock × Point × Graph) :=
  match source with
  | .palette type =>
    match e.graph.newBlock type e.objects e.graph.variableNames with
    | .error err => .error (.graph err)
    | .ok (b, g) => .ok ([b], e.paletteGrab type pointer, g)
  | .placed id =>
    match e.layout.block? id with
    | none => .error (.notOnCanvas id)
    | some box =>
      match e.graph.detach? id with
      | none => .error (.notDetached id)
      | some (blocks, g) => .ok (blocks, e.viewport.toCanvas pointer - box.rect.min, g)

def beginDrag (e : Editor) (source : DragSource) (pointer : Point) : Except Error Editor :=
  if e.isDragging then .error .dragInProgress
  else
    match e.pickUp source pointer with
    | .error err => .error err
    | .ok (blocks, grabOffset, graph) =>
      .ok
        (({ e with graph, drag := some ⟨blocks, grabOffset, pointer, none⟩ } : Editor).updateDrag
          pointer)

/-- Moves a chain up, so that blocks put in front of it do not move it down. -/
def raise (height : Float32) (c : Chain) : Chain :=
  { c with position := ⟨c.position.x, c.position.y - height⟩ }

/-- The graph with blocks attached at a target; none when the target is gone. -/
def splice? (g : Graph) (target : SnapTarget) (blocks : List PlacedBlock) (height : Float32) :
    Option Graph :=
  match target with
  | .appendAfter id => do
    let l ← g.locate? id
    (g.insert l.container (l.index + 1) blocks).toOption
  | .prependBefore id => do
    let l ← g.locate? id
    let g ← (g.insert l.container 0 blocks).toOption
    match l.container with
    | .chain chain => some (g.editChain chain (raise height))
    | .slot .. => some g
  | .nest owner slot => (g.insert (.slot owner slot) 0 blocks).toOption

/-- Puts a dragged group into the graph: at its snap target, or as a chain of its own. -/
def place (e : Editor) (d : Drag) (pointer : Point) : Option DropOutcome × Graph :=
  let attached := d.snap.bind fun c =>
    (splice? e.graph c.target d.blocks (Layout.listHeight d.blocks)).map (c.target, ·)
  match attached with
  | some (target, g) => (some (.snapped target), g)
  | none =>
    let (id, g) := e.graph.addChain (e.payloadCorner d pointer) d.blocks
    (id.map .newChain, g)

/-- Whether a group dropped at a point is thrown away. -/
def discards (e : Editor) (pointer : Point) : Bool :=
  e.config.trash.contains pointer || !e.config.canvas.contains pointer

/-- Ends the drag, if there is one, with the pointer at a point. -/
def endDrag (e : Editor) (pointer : Point) : Option DropOutcome × Editor :=
  match (e.updateDrag pointer).drag with
  | none => (none, e)
  | some d =>
    let e : Editor := { e with drag := none }
    if e.discards pointer then (some .discarded, e)
    else
      let (outcome, graph) := e.place d pointer
      (outcome, { e with graph })

def panBy (e : Editor) (dx dy : Float32) : Editor := { e with viewport := e.viewport.panBy dx dy }

def zoomBy? (e : Editor) (delta : Float32) : Option Editor :=
  (e.viewport.zoomBy? delta).map fun viewport => { e with viewport }

/-- Sets the value of a field of a block, when the field accepts it. -/
def setField (e : Editor) (id : BlockId) (key value : String) : Except Error Editor :=
  match e.graph.find? id with
  | none => .error (.unknownBlock id)
  | some b =>
    match definition? b.type with
    | none => .error (.graph (.unknownType b.type))
    | some d =>
      match d.field? key with
      | none => .error (.noField b.type key)
      | some f =>
        if f.accepts value e.objects e.graph.variableNames then
          let set (b : PlacedBlock) : PlacedBlock := { b with values := b.values.insert key value }
          .ok { e with graph := e.graph.editBlock id set }
        else .error (.badValue b.type key value)

def declare (e : Editor) (name : String) : Except Error Editor :=
  match e.graph.declare name with
  | .error err => .error (.graph err)
  | .ok graph => .ok { e with graph }

/-- Removes a variable; says whether there was one. -/
def undeclare (e : Editor) (name : String) : Bool × Editor :=
  let graph := e.graph.undeclare name
  (graph.variableNames.length ≠ e.graph.variableNames.length, { e with graph })

/-- The objects that fields may name: each once, in ascending order. -/
def setObjects (e : Editor) (ids : List String) : Editor :=
  { e with objects := (Table.ofList (ids.map (·, ()))).keys }

/-- The program as a document. Blocks that are being dragged are not in it. -/
def toDocument (e : Editor) : Document := e.graph.toDocument

/-- Replaces the program by a document and gives up the drag. -/
def load (e : Editor) (d : Document) : Editor := { e with drag := none, graph := e.graph.load d }

/-- Empties the canvas and gives up the drag. -/
def clear (e : Editor) : Editor := { e with drag := none, graph := e.graph.clear }

end Editor

end BlockStudio
