import BlockStudio.Random
import BlockStudio.Script.Limits
import BlockStudio.Script.Task
import BlockStudio.Script.Trigger
import BlockStudio.World

/-!
What running scripts read and change. The program (limits, functions, watchers) stays fixed for a
session; the state holds the variables, the message on the screen, the waiting tasks, the faults,
the random source and the game itself.
-/
namespace BlockStudio.Script

structure Program where
  limits : Limits
  functions : Table (List Action)
  /-- The action lists that a write to a variable starts, in the order in which they were
  registered. -/
  watchers : Table (List (List Action))

/-- An action that failed. The action list goes on after it. -/
structure Fault where
  origin : String
  action : ActionKind
  message : String
  frame : Nat
deriving Repr, DecidableEq

def faultLimit : Nat := 100

abbrev FaultLog := BoundedLog Fault faultLimit

/-- A message on the screen, with the seconds for which it stays. -/
structure Overlay where
  text : String
  remaining : Float
deriving Repr, DecidableEq

structure State where
  variableValues : Table Float
  overlay : Option Overlay
  /-- The waiting tasks in the order in which they were put to wait. -/
  pending : List Task
  lastTaskId : Nat
  faults : FaultLog
  random : Random
  world : World

/-- The variable that mirrors the score of the game. -/
def scoreVariable : String := "score"

namespace State

/-- The value of a variable; one that does not exist reads as zero. -/
def read (s : State) (name : String) : Float := (s.variableValues.get? name).getD 0

def holds (s : State) (c : Condition) : Bool := c.holds (s.read c.variableName)

/-- Records a fault of an action in a moment. -/
def fault (s : State) (m : Moment) (origin : String) (action : ActionKind) (message : String) :
    State :=
  { s with faults := s.faults.push ⟨origin, action, message, m.frame⟩ }

/-- Gives a variable a value; the score variable gives it to the game as well. -/
def store (s : State) (name : String) (value : Float) : State :=
  let s : State := { s with variableValues := s.variableValues.insert name value }
  if name = scoreVariable then { s with world := { s.world with score := value } } else s

/-- Gives the game a score, and the score variable the same value. -/
def setScore (s : State) (value : Float) : State :=
  { s with
    world := { s.world with score := value }
    variableValues := s.variableValues.insert scoreVariable value }

/-- Changes an object, if it exists. -/
def editObject (s : State) (id : ObjectId) (f : GameObject → GameObject) : State :=
  { s with world := { s.world with objects := s.world.objects.modify id f } }

def emit (s : State) (content : EventContent) : State := { s with world := s.world.emit content }

end State

/-- How a write starts the watchers of a variable: from the label and the actions of a watcher. None
stands for the greatest nesting, at which no watcher starts. -/
abbrev Cascade := Option (String → List Action → State → State)

/-- Gives a variable a value and starts its watchers, one after the other. -/
def write (p : Program) (m : Moment) (cascade : Cascade) (origin name : String) (value : Float)
    (s : State) : State :=
  let s := s.store name value
  match p.watchers.get? name with
  | none => s
  | some lists =>
    match cascade with
    | none => s.fault m origin .setVar ("watcher cascade limit reached on '" ++ name ++ "'")
    | some start => lists.foldl (fun s actions => start (Trigger.changeLabel name) actions s) s

/-- Carries out an effect. Objects that do not exist and variables without name are left alone. -/
def perform (p : Program) (m : Moment) (cascade : Cascade) (origin : String) (e : Effect)
    (s : State) : State :=
  match e with
  | .move id dx dy =>
    s.editObject id fun o => { o with x := o.x + Number.narrow dx, y := o.y + Number.narrow dy }
  | .teleport id x y =>
    s.editObject id fun o => { o with x := Number.narrow x, y := Number.narrow y }
  | .setVisible id visible => s.editObject id fun o => { o with visible }
  | .destroy id => { s with world := s.world.destroyObject id }
  | .setColor id color =>
    if s.world.objects.contains id then
      match Color.ofText color with
      | .ok color => s.editObject id fun o => { o with color }
      | .error err =>
        s.fault m origin .setColor ("invalid color '" ++ color ++ "': " ++ err.message)
    else s
  | .setVariable name value => if name.isEmpty then s else write p m cascade origin name value s
  | .changeVariable name delta =>
    if name.isEmpty then s else write p m cascade origin name (s.read name + delta) s
  | .addScore amount => s.setScore (s.world.score + amount)
  | .setScore value => s.setScore value
  | .showMessage text seconds =>
    ({ s with overlay := some ⟨text, seconds⟩ } : State).emit (.message text)
  | .endGame =>
    ({ s with world := { s.world with ended := true } } : State).emit (.gameEnded origin)

end BlockStudio.Script
