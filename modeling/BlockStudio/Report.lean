import BlockStudio.Game
import BlockStudio.Json.Writer
import BlockStudio.Studio.Clock

/-!
Runs of a document without a window, and what is reported about them. A run asks for a session, goes
through frames of one sixtieth of a second and reports the engine as it was when a session last ran.
-/
namespace BlockStudio

namespace Script

def Fault.toJson (f : Fault) : Json :=
  .object [("action", .text f.action.name), ("frame", .number (.nat f.frame)),
    ("message", .text f.message), ("origin", .text f.origin)]

/-- The JSON form of an engine: its session in numbers, and its faults. -/
def Engine.toJson (e : Engine) : Json :=
  let entry (v : String × Float) : Json := .array [.text v.1, .number (.double v.2)]
  .object
    ([("faults", .array (e.faults.entries.map Fault.toJson)),
        ("frame", .number (.nat e.moment.frame))]
      ++ (e.overlay.map fun o => ("overlay", Json.text o.text)).toList
      ++ [("pending_tasks", .number (.nat e.pendingCount)), ("running", .bool e.isRunning),
        ("seconds", .number (.double e.moment.seconds)),
        ("variables", .array (e.variableValues.entries.map entry))])

end Script

/-- A game that runs without a window, with its clock. -/
structure Run where
  clock : Clock
  game : Game
  /-- The engine after the last frame in which a session ran. -/
  lastRunning : Option Script.Engine

namespace Run

def frameLength : Nat := 16666667

/-- A run of a document in a world, with a session asked for. -/
def start (engine : Script.Engine) (world : World) (d : Document) : Run :=
  ⟨.start, ({ Game.new engine world with active := some d } : Game).request .play, none⟩

def frame (r : Run) : Run :=
  let time := r.clock.frameTime frameLength
  let game := (r.game.beginFrame none none (Clock.seconds time)).endFrame
  ⟨r.clock.after time, game, if game.engine.isRunning then some game.engine else r.lastRunning⟩

/-- The run after some frames. -/
def frames : Nat → Run → Run
  | 0, r => r
  | n + 1, r => frames n r.frame

def report (r : Run) : Json :=
  let g := r.game
  .object
    [("events", .object (g.world.bus.summary.map fun e => (e.1, .number (.nat e.2)))),
      ("runtime", (r.lastRunning.getD g.engine).toJson), ("score", .number (.double g.world.score)),
      ("session", .object [("mode", .text g.mode.name), ("plays", .number (.nat g.plays))])]

end Run

end BlockStudio
