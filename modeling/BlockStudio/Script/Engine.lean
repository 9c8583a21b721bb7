import BlockStudio.Script.Session

/-!
The engine runs one play session at a time. The random source and the counter of task ids go on from
session to session; the faults of a session stay readable until the next one begins; everything else
belongs to the session and ends with it.
-/
namespace BlockStudio.Script

structure Engine where
  limits : Limits
  random : Random
  lastTaskId : Nat
  faults : FaultLog
  session : Option Session

namespace Engine

def ofSeed (limits : Limits) (seed : Nat) : Engine :=
  ⟨limits, .ofSeed (.ofNat seed), 0, .empty, none⟩

/-- The engine that goes on with a session, and the game, after a step. -/
def resume (e : Engine) (r : Session × State) : Engine × World :=
  ({ e with
      random := r.2.random
      lastTaskId := r.2.lastTaskId
      faults := r.2.faults
      session := some r.1 }, r.2.world)

/-- Begins a session with a document; a session that is running is dropped. -/
def start (e : Engine) (d : Document) (w : World) : Engine × World :=
  e.resume (Session.begin e.limits d e.lastTaskId e.random w)

/-- Advances the session by a frame, if one is running. -/
def update (e : Engine) (dt : Float) (w : World) : Engine × World :=
  match e.session with
  | none => (e, w)
  | some s => e.resume (s.advance dt (s.state e.lastTaskId e.faults e.random w))

def stop (e : Engine) : Engine := { e with session := none }

def isRunning (e : Engine) : Bool := e.session.isSome

def moment (e : Engine) : Moment := (e.session.map (·.moment)).getD .start

def variableValues (e : Engine) : Table Float := (e.session.map (·.variableValues)).getD .empty

def overlay (e : Engine) : Option Overlay := e.session.bind (·.overlay)

/-- The number of tasks that wait, timers included. -/
def pendingCount (e : Engine) : Nat := (e.session.map (·.pending.length)).getD 0

def hasFunction (e : Engine) (name : String) : Bool :=
  e.session.any (·.program.functions.contains name)

end Engine

end BlockStudio.Script
