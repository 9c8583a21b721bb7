import BlockStudio.Document
import BlockStudio.Script.Machine

/-!
Play sessions. A session begins with the chains of a document, sorted by their triggers, and then
advances frame by frame: score triggers, touches, keys and the waiting tasks, in this order. Only
the order of chains with one kind of trigger matters. Each group of triggers is decided as a whole
before any of its lists runs.
-/
namespace BlockStudio.Script

/-- The action lists that a touch or a key starts, and whether the object was touched or the key
held when last looked at. -/
structure Binding where
  lists : List (List Action)
  active : Bool

/-- An action list that starts once, when the score compares as asked for. -/
structure ScoreTrigger where
  comparison : Option Comparison
  threshold : Float
  actions : List Action
  fired : Bool

structure Session where
  program : Program
  moment : Moment
  touches : Table Binding
  keys : Table Binding
  scores : List ScoreTrigger
  variableValues : Table Float
  overlay : Option Overlay
  pending : List Task

structure Handler where
  trigger : Trigger
  actions : List Action

namespace Handler

/-- The handler of a chain, if its first block has a trigger. -/
def ofChain? (c : DocumentChain) : Option Handler :=
  match c.blocks with
  | [] => none
  | head :: rest => (Trigger.ofBlock? head).map fun trigger => ⟨trigger, compileList rest⟩

/-- The handlers of a document in the order of its chains. -/
def ofDocument (d : Document) : List Handler := d.chains.filterMap ofChain?

def labelled (h : Handler) : String × List Action := (h.trigger.label, h.actions)

def start? (h : Handler) : Option (String × List Action) :=
  match h.trigger with
  | .start => some h.labelled
  | _ => none

def timer? (h : Handler) : Option (Float × String × List Action) :=
  match h.trigger with
  | .timer seconds => some (seconds, h.labelled)
  | _ => none

def touch? (h : Handler) : Option (String × List Action) :=
  match h.trigger with
  | .touch object => some (object, h.actions)
  | _ => none

def key? (h : Handler) : Option (String × List Action) :=
  match h.trigger with
  | .key name => some (name, h.actions)
  | _ => none

def watcher? (h : Handler) : Option (String × List Action) :=
  match h.trigger with
  | .variableChanged name => some (name, h.actions)
  | _ => none

def score? (h : Handler) : Option ScoreTrigger :=
  match h.trigger with
  | .score comparison threshold => some ⟨comparison, threshold, h.actions, false⟩
  | _ => none

def function? (h : Handler) : Option (String × List Action) :=
  match h.trigger with
  | .function name => some (name, h.actions)
  | _ => none

end Handler

/-- Adds a value at the end of the values under a name. -/
def addToGroup {α : Type} (t : Table (List α)) (e : String × α) : Table (List α) :=
  t.insert e.1 ((t.get? e.1).getD [] ++ [e.2])

/-- Collects under each name the values given for it, in order. -/
def grouped {α : Type} (es : List (String × α)) : Table (List α) :=
  es.foldl addToGroup .empty

/-- The bindings of a session that has just begun: nothing is touched and nothing held. -/
def bindings (es : List (String × List Action)) : Table Binding :=
  (grouped es).mapValues fun _ lists => ⟨lists, false⟩

/-- The program of some handlers. The last definition of a function counts. -/
def Program.ofHandlers (limits : Limits) (hs : List Handler) : Program :=
  ⟨limits, .ofList (hs.filterMap Handler.function?), grouped (hs.filterMap Handler.watcher?)⟩

/-- Puts a timer to wait until its time has come. -/
def State.addTimer (s : State) (t : Float × String × List Action) : State :=
  let (id, s) := s.takeTaskId
  s.keep id t.2.1 (some (.atTime (Moment.start.seconds + t.1), [.begin t.2.2]))

/-- Gives the score variable the score of the game. -/
def State.mirrorScore (s : State) : State :=
  { s with variableValues := s.variableValues.insert scoreVariable s.world.score }

/-- Takes time from the message on the screen; it goes when no time is left. -/
def Overlay.after? (o : Overlay) (dt : Float) : Option Overlay :=
  let remaining := o.remaining - dt
  if remaining ≤ 0 then none else some { o with remaining }

def State.ageOverlay (s : State) (dt : Float) : State :=
  { s with overlay := s.overlay.bind (·.after? dt) }

/-- The score triggers that a score fires, each once, and the triggers afterwards. -/
def fireScores (score : Float) : List ScoreTrigger → List (String × List Action) × List ScoreTrigger
  | [] => ([], [])
  | t :: rest =>
    let (fired, rest) := fireScores score rest
    if !t.fired && t.comparison.any (·.holds score t.threshold) then
      (((Trigger.score t.comparison t.threshold).label, t.actions) :: fired,
        { t with fired := true } :: rest)
    else (fired, t :: rest)

/-- The lists of the bindings that become active, each with the label of its trigger. -/
def risen (label : String → String) (isActive : String → Bool) (t : Table Binding) :
    List (String × List Action) :=
  t.entries.flatMap fun (name, b) =>
    if isActive name && !b.active then b.lists.map (label name, ·) else []

def sense (isActive : String → Bool) (t : Table Binding) : Table Binding :=
  t.mapValues fun name b => { b with active := isActive name }

/-- The time that a frame takes: negative times and what is no number count as none. -/
def frameTime (dt : Float) : Float :=
  if dt.isFinite && dt > 0 then dt else 0

def Moment.after (m : Moment) (dt : Float) : Moment := ⟨m.seconds + dt, Number.countUp m.frame 1⟩

namespace Session

/-- The state of a session in a game, with what outlives the session. -/
def state (s : Session) (lastTaskId : Nat) (faults : FaultLog) (random : Random) (world : World) :
    State :=
  ⟨s.variableValues, s.overlay, s.pending, lastTaskId, faults, random, world⟩

/-- The session with the variables, the message and the waiting tasks of a state. -/
def withState (s : Session) (st : State) : Session :=
  { s with variableValues := st.variableValues, overlay := st.overlay, pending := st.pending }

/-- Begins a session: registers all handlers, sets up the timers and runs the lists that start at
once. -/
def begin (limits : Limits) (d : Document) (lastTaskId : Nat) (random : Random) (world : World) :
    Session × State :=
  let hs := Handler.ofDocument d
  let program := Program.ofHandlers limits hs
  let session : Session :=
    { program
      moment := .start
      touches := bindings (hs.filterMap Handler.touch?)
      keys := bindings (hs.filterMap Handler.key?)
      scores := hs.filterMap Handler.score?
      variableValues := .ofList (d.variableNames.map (·, 0))
      overlay := none
      pending := [] }
  let st := (session.state lastTaskId .empty random world).mirrorScore
  let st := (hs.filterMap Handler.timer?).foldl State.addTimer st
  let st := startAll program .start (hs.filterMap Handler.start?) st
  (session.withState st, st)

def advance (s : Session) (dt : Float) (st : State) : Session × State :=
  let dt := frameTime dt
  let m := s.moment.after dt
  let st := (st.ageOverlay dt).mirrorScore
  let (fired, scores) := fireScores st.world.score s.scores
  let st := fireAll s.program m fired st
  let touched := st.world.touchesPlayer
  let st := fireAll s.program m (risen (Trigger.label ∘ .touch) touched s.touches) st
  let held := st.world.isKeyDown
  let st := fireAll s.program m (risen (Trigger.label ∘ .key) held s.keys) st
  let st := resumeDue s.program m st
  (({ s with moment := m, scores, touches := sense touched s.touches, keys := sense held s.keys } :
    Session).withState st, st)

end Session

end BlockStudio.Script
