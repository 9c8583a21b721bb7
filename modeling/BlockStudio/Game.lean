import BlockStudio.Scene
import BlockStudio.Script.Engine

/-!
A game under its author's control. It is being edited, played, or over; requests ask for another
mode, and a frame carries out the last mode that was asked for before it runs. The engine runs a
session exactly while the game is played: entering that mode begins the session and leaving it ends
the session.
-/
namespace BlockStudio

inductive Mode where
  | editing
  | playing
  | gameOver
deriving Repr, DecidableEq

inductive Request where
  | play
  | stop
  | restart
deriving Repr, DecidableEq

def Mode.name : Mode → String
  | .editing => "Editing"
  | .playing => "Playing"
  | .gameOver => "GameOver"

/-- The mode that a request asks for. A game that is played is restarted through the editing
mode. -/
def Request.target? (r : Request) (m : Mode) : Option Mode :=
  match r, m with
  | .play, .playing => none
  | .play, _ => some .playing
  | .stop, .editing => none
  | .stop, _ => some .editing
  | .restart, .playing => some .editing
  | .restart, _ => some .playing

structure Game where
  mode : Mode
  /-- The mode that the next frame begins with, if it was asked for. -/
  nextMode : Option Mode
  /-- Whether the game goes on to play when it is edited again. -/
  restartPending : Bool
  plays : Nat
  requests : List Request
  engine : Script.Engine
  world : World
  /-- The document of the last session, or the one that was loaded since. -/
  active : Option Document

namespace Game

def new (engine : Script.Engine) (world : World) : Game :=
  ⟨.editing, none, false, 0, [], engine, world, none⟩

def request (g : Game) (r : Request) : Game := { g with requests := g.requests ++ [r] }

def handle (g : Game) (r : Request) : Game :=
  match r.target? g.mode with
  | none => g
  | some m =>
    { g with
      nextMode := some m
      restartPending := g.restartPending || (r == .restart && g.mode == .playing) }

def handleRequests (g : Game) : Game := g.requests.foldl handle { g with requests := [] }

/-- Leaves the present mode. After a session the scene is set up again, if there is one. -/
def leave (g : Game) (scene : Option Scene) : Game :=
  match g.mode with
  | .playing =>
    { g with engine := g.engine.stop, world := (scene.map (·.setUp g.world)).getD g.world }
  | _ => g

def startSession (g : Game) (d : Document) : Game :=
  let (engine, world) := g.engine.start d { g.world with ended := false }
  { g with engine, world, active := some d, plays := Number.countUp g.plays 1 }

/-- Enters a mode; `d` is the document to play. -/
def enter (g : Game) (m : Mode) (d : Document) : Game :=
  let g : Game := { g with mode := m }
  match m with
  | .playing => g.startSession d
  | .editing =>
    if g.restartPending then { g with restartPending := false, nextMode := some .playing } else g
  | .gameOver => g

/-- Changes to the mode that was asked for. The document to play is the one on the canvas, and
without a canvas the active one. -/
def changeMode (g : Game) (scene : Option Scene) (canvas : Option Document) : Game :=
  match g.nextMode with
  | none => g
  | some m =>
    let g : Game := { g with nextMode := none }
    if m = g.mode then g else (g.leave scene).enter m (canvas.getD (g.active.getD .empty))

/-- Advances the session by a frame, while the game is played. -/
def tick (g : Game) (dt : Float) : Game :=
  match g.mode with
  | .playing =>
    let (engine, world) := g.engine.update dt { g.world with bus := g.world.bus.tick }
    { g with engine, world }
  | _ => g

/-- The game is over when a script has ended it. -/
def finish (g : Game) : Game :=
  if g.mode == .playing && g.world.ended then { g with nextMode := some .gameOver } else g

/-- The first part of a frame: the mode changes and the session advances. -/
def beginFrame (g : Game) (scene : Option Scene) (canvas : Option Document) (dt : Float) : Game :=
  (g.changeMode scene canvas).tick dt

/-- The last part of a frame: the requests are answered. -/
def endFrame (g : Game) : Game := g.handleRequests.finish

end Game

end BlockStudio
