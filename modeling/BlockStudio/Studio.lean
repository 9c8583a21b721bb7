import BlockStudio.Document.Project
import BlockStudio.Studio.Buttons
import BlockStudio.Studio.Clock
import BlockStudio.Studio.Drawing
import BlockStudio.Studio.KeyCode
import BlockStudio.Studio.Wheel

/-!
The studio: a game with an editor, a keyboard, a mouse, a window and the file of the script. A frame
goes through the parts in a fixed order: the mode changes and the session advances, the pointer
drives the editor, the keys and requests are answered, the script is saved, the window is drawn, the
player moves, and changes of the file are taken in.
-/
namespace BlockStudio

/-- What the window shows. -/
structure Display where
  /-- Whether outlines and labels are drawn, besides the status text. -/
  drawsShapes : Bool
  /-- The status text, from the first frame on. -/
  status : Option String
  labels : List CanvasLabel
  strokes : List Stroke

/-- The file in which the script is saved. -/
structure ScriptFile where
  writable : Bool
  /-- The text that was last saved. -/
  lastWritten : Option String

structure Studio where
  scene : Scene
  game : Game
  editor : Option Editor
  /-- Whether the objects may have changed since the editor last looked at them. -/
  objectsChanged : Bool
  clock : Clock
  keys : Buttons KeyCode
  mouse : Buttons MouseButton
  wheel : WheelQueue
  window : Option Window
  cursor : Option Point
  /-- Where the cursor was when the pointer last drove the editor. -/
  lastCursor : Option Point
  file : ScriptFile
  /-- Texts of the file that were written from outside, the oldest first. -/
  changes : List String
  display : Option Display

namespace Studio

def new (scene : Scene) (engine : Script.Engine) (editor : Option Editor)
    (window : Window) (writable : Bool) (display : Option Display) : Studio :=
  ⟨scene, .new engine .empty, editor, true, .start, .none, .none, .empty, some window, none, none,
    ⟨writable, none⟩, [], display⟩

def editWorld (s : Studio) (f : World → World) : Studio :=
  { s with game := { s.game with world := f s.game.world } }

def putObject (s : Studio) (id : ObjectId) (o : GameObject) : Studio :=
  { s.editWorld fun w => { w with objects := w.objects.insert id o } with objectsChanged := true }

/-- Moves the cursor, while there is a window. -/
def moveCursor (s : Studio) (p : Option Point) : Studio :=
  match s.window with
  | none => s
  | some _ => { s with cursor := p }

def closeWindow (s : Studio) : Studio := { s with window := none, cursor := none }

def prepare (s : Studio) : Studio :=
  if s.clock.running then s else { s.editWorld s.scene.setUp with objectsChanged := true }

/-- The keys that scripts see. -/
def scriptKeys (s : Studio) : Table Unit :=
  .ofList ((s.keys.held.filterMap KeyCode.scriptName?).map (·, ()))

/-- The mode changes and the session advances. Both may change objects when the game is played
before or after. -/
def advance (s : Studio) (dt : Float) : Studio :=
  let s := s.editWorld fun w => { w with keys := s.scriptKeys }
  let game := s.game.beginFrame (some s.scene) (s.editor.map (·.toDocument)) dt
  { s with
    game
    objectsChanged := s.objectsChanged || s.game.mode == .playing || game.mode == .playing }

/-- The editor learns which objects there are. -/
def syncObjects (s : Studio) : Studio :=
  match s.editor with
  | none => s
  | some e =>
    if s.objectsChanged then
      { s with editor := some (e.setObjects s.game.world.objects.keys), objectsChanged := false }
    else s

/-- The left button takes up blocks and puts them down. -/
def dragWith (mouse : Buttons MouseButton) (cursor : Point) (e : Editor) : Editor :=
  let e :=
    if mouse.wentDown .left && !e.isDragging then
      match e.pick? cursor with
      | some source => (e.beginDrag source cursor).toOption.getD e
      | none => e
    else e
  if e.isDragging then
    let e := e.updateDrag cursor
    if mouse.wentUp .left then (e.endDrag cursor).2 else e
  else e

/-- The other buttons move the view by the way of the cursor. -/
def panWith (mouse : Buttons MouseButton) (last : Option Point) (cursor : Point) (e : Editor) :
    Editor :=
  match last with
  | some last =>
    if mouse.isHeld .right || mouse.isHeld .middle then
      e.panBy (cursor - last).x (cursor - last).y else e
  | none => e

/-- The zoom that a movement of the wheel asks for; only its sign counts. -/
def zoomStep (y : Float32) : Float32 :=
  if y.isNaN then y else if y < 0 || (y == 0 && 1 / y < 0) then -0.1 else 0.1

def zoomWith (moves : List Float32) (e : Editor) : Editor :=
  moves.foldl (fun e y => (e.zoomBy? (zoomStep y)).getD e) e

/-- The pointer drives the editor while the game is edited and the cursor is in the window. -/
def drivePointer (s : Studio) : Studio :=
  match s.editor, s.window with
  | some e, some w =>
    if s.game.mode == .editing then
      match s.cursor.bind w.cursor? with
      | none => { s with lastCursor := none }
      | some cursor =>
        let (moves, wheel) := s.wheel.take
        let e := zoomWith moves (panWith s.mouse s.lastCursor cursor (dragWith s.mouse cursor e))
        { s with editor := some e, lastCursor := some cursor, wheel }
    else s
  | _, _ => s

/-- What the play key asks for. -/
def playKeyRequest : Mode → Request
  | .editing => .play
  | _ => .stop

def answerKeys (s : Studio) : Studio :=
  if s.keys.wentDown .f5 then { s with game := s.game.request (playKeyRequest s.game.mode) } else s

/-- Saves the script when the save keys were pressed and the file can be written. -/
def save (s : Studio) : Studio :=
  match s.editor with
  | none => s
  | some e =>
    let asked :=
      (s.keys.isHeld .controlLeft || s.keys.isHeld .controlRight) && s.keys.wentDown .letterS
    if asked && s.file.writable then
      { s with file := { s.file with lastWritten := some e.toDocument.toSource } } else s

/-- The display with the status text of the present moment. -/
def showStatus (s : Studio) (d : Display) : Display :=
  { d with status := some (Drawing.statusText s.game), strokes := [] }

/-- The display with the outlines and labels of the present moment. -/
def showShapes (s : Studio) (d : Display) : Display :=
  match s.window with
  | none => d
  | some w =>
    if s.game.mode == .editing then
      match s.editor with
      | none => d
      | some e =>
        { d with
          strokes := Drawing.ofEditor w e
          labels := Drawing.syncLabels d.labels (Drawing.wantedLabels w e) }
    else { d with strokes := Drawing.ofWorld w s.game.world }

def draw (s : Studio) : Studio :=
  { s with
    display := s.display.map fun d =>
      let d := s.showStatus d
      if d.drawsShapes then s.showShapes d else d }

def playerSpeed : Float32 := 180

/-- The keys that move the player, each pair with its direction. -/
def directions : List (List String × Point) :=
  [(["left", "a"], ⟨-1, 0⟩), (["right", "d"], ⟨1, 0⟩), (["up", "w"], ⟨0, -1⟩),
    (["down", "s"], ⟨0, 1⟩)]

/-- The sum of the directions whose keys are held. -/
def heading (w : World) : Point :=
  directions.foldl (fun p d => if d.1.any w.isKeyDown then p + d.2 else p) .zero

/-- Moves the player by its speed for `dt` seconds, in whatever direction. -/
def steer (dt : Float32) (w : World) : World :=
  let h := heading w
  if h.x == 0 && h.y == 0 then w
  else
    let step := (h.scale (1 / h.length)).scale (playerSpeed * dt)
    { w with player := { w.player with x := w.player.x + step.x, y := w.player.y + step.y } }

def movePlayer (s : Studio) (dt : Float32) : Studio :=
  if s.game.mode == .playing then s.editWorld (steer dt) else s

/-- The number of changes of the file that one frame looks at. -/
def changesPerFrame : Nat := 16

/-- Takes in a text of the file, unless the studio wrote it itself or it holds no document. -/
def reload (s : Studio) (source : String) : Studio :=
  if s.file.lastWritten = some source then s
  else
    match Document.ofSource source with
    | .error _ => s
    | .ok d =>
      let game : Game := { s.game with active := some d }
      { s with
        editor := s.editor.map (·.load d)
        game := if game.mode == .playing then game.request .restart else game }

/-- Takes in the newest of the changes that a frame looks at. -/
def takeChanges (s : Studio) : Studio :=
  let rest : Studio := { s with changes := s.changes.drop changesPerFrame }
  match (s.changes.take changesPerFrame).getLast? with
  | none => s
  | some source => rest.reload source

/-- A frame, when `elapsed` nanoseconds have passed outside since the last one. -/
def frame (s : Studio) (elapsed : Nat) : Studio :=
  let s := s.prepare
  let time := s.clock.frameTime elapsed
  let s : Studio :=
    { s with wheel := s.wheel.turn.noteBeat (s.clock.beats time), clock := s.clock.after time }
  let s := ((s.advance (Clock.seconds time)).syncObjects).drivePointer
  let s := s.answerKeys
  let s : Studio := { s with game := s.game.endFrame }
  let s := (s.save.draw).movePlayer (Clock.secondsSingle time)
  let s := s.takeChanges
  { s with keys := s.keys.settle, mouse := s.mouse.settle }

end Studio

end BlockStudio
