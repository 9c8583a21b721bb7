import BlockStudio.Editor.View
import BlockStudio.Game
import BlockStudio.Studio.Window

/-!
What a window shows: outlines of the blocks while the game is edited and of the objects otherwise,
labels of blocks, and a status text.
-/
namespace BlockStudio

/-- An outline in drawing coordinates. -/
inductive Stroke where
  | rect (topLeft bottomRight : Point) (color : Color)
  /-- A circle, given by its topmost point. -/
  | circle (top : Point) (color : Color)
deriving Repr, DecidableEq

/-- A text at a place in drawing coordinates. -/
structure CanvasLabel where
  text : String
  position : Point
  visible : Bool
deriving Repr, DecidableEq

def Category.color : Category → Color
  | .events => .rgba 0xf2 0xb1 0x34 255
  | .motion => .rgba 0x4c 0x97 0xff 255
  | .looks => .rgba 0x99 0x66 0xff 255
  | .variableOps => .rgba 0xff 0x8c 0x1a 255
  | .control => .rgba 0xff 0xab 0x19 255
  | .game => .rgba 0x59 0xc0 0x59 255
  | .functions => .rgba 0xff 0x66 0x80 255

namespace Drawing

def unknownColor : Color := .rgba 0x88 0x88 0x88 255
def paletteColor : Color := .rgba 255 255 255 51
def trashColor : Color := .rgba 255 64 51 204
def slotColor : Color := .rgba 255 255 255 64
def dragColor : Color := .rgba 255 255 255 230
def markerColor : Color := .rgba 255 242 51 255
def playerColor : Color := .rgba 51 230 255 255

def markerRadius : Float32 := 6

/-- A point turned about the origin by an angle with a given sine and cosine. -/
def turned (sine cosine : Float32) (p : Point) : Point :=
  ⟨p.x * cosine - p.y * sine, p.x * sine + p.y * cosine⟩

/-- A corner of an upright shape around a centre. -/
def corner (center offset : Point) : Point := turned 0 1 offset + center

def outline (w : Window) (r : Rect) (color : Color) : Stroke :=
  let center := w.toDrawing r.center
  let half := r.size.shrink 2
  .rect (corner center ⟨-half.x, half.y⟩) (corner center ⟨half.x, -half.y⟩) color

/-- The mark of a place where a group would snap. -/
def marker (w : Window) (p : Point) : Stroke :=
  .circle (corner (w.toDrawing p) ⟨0, markerRadius⟩) markerColor

def ofEditor (w : Window) (e : Editor) : List Stroke :=
  let v := e.view
  [outline w e.config.palette paletteColor, outline w e.config.trash trashColor]
    ++ v.palette.map (fun p => outline w p.rect p.kind.definition.category.color)
    ++ v.blocks.map (fun b => outline w b.rect ((b.category.map (·.color)).getD unknownColor))
    ++ v.slots.map (outline w · slotColor)
    ++ v.dragging.map (fun b => outline w b.rect dragColor)
    ++ (v.snapMarker.map (marker w)).toList

/-- The outlines while the game is not edited: the visible objects in the order of their ids, and
the player. -/
def ofWorld (w : Window) (world : World) : List Stroke :=
  let visible := world.objects.entries.filter (·.2.visible)
  visible.map (fun e => outline w e.2.box.toRect e.2.color) ++
    [outline w world.player.toRect playerColor]

/-- The labels that the editor wants, in order. -/
def wantedLabels (w : Window) (e : Editor) : List (String × Point) :=
  let v := e.view
  let at' (r : Rect) : Point := w.toDrawing (r.min + ⟨6, 12⟩)
  v.palette.map (fun p => (p.label, at' p.rect)) ++ (v.blocks ++ v.dragging).map fun b =>
    (b.label, at' b.rect)

/-- Gives the labels there are to the texts that are wanted, in order. Labels left over are hidden;
a label that is added shows from the next time on. -/
def syncLabels : List CanvasLabel → List (String × Point) → List CanvasLabel
  | [], wanted => wanted.map fun t => ⟨t.1, t.2, false⟩
  | labels, [] => labels.map fun l => { l with visible := false }
  | _ :: labels, t :: wanted => ⟨t.1, t.2, true⟩ :: syncLabels labels wanted

/-- The number of faults that the status text shows. -/
def faultLines : Nat := 5

def faultLine (f : Script.Fault) : String :=
  "\n[" ++ f.origin ++ "] " ++ f.action.name ++ ": " ++ f.message

def modeLine (g : Game) : String :=
  match g.mode with
  | .editing => "EDITING  [F5 play, Ctrl+S save]"
  | .playing => "PLAYING  score " ++ Number.rounded g.world.score ++ "  [F5 stop]"
  | .gameOver => "GAME OVER  score " ++ Number.rounded g.world.score ++ "  [F5 edit]"

/-- The status text: the mode, the message on the screen and the latest faults. -/
def statusText (g : Game) : String :=
  let message := (g.engine.overlay.map fun o => "\n" ++ o.text).getD ""
  let faults := g.engine.faults.entries
  modeLine g ++ message ++ String.join ((faults.drop (faults.length - faultLines)).map faultLine)

end Drawing

end BlockStudio
