import BlockStudio.Proofs.Bindings
import BlockStudio.Proofs.ChainOrder

/-!
The end of a session. Here the engine is one record for all sessions: a session fills it, the runs
of a frame work on it, and the end of the session empties it, unless it looks empty already. Main
statement: between calls the record and the engine tell the same; a record that does not run is
empty, and once its session has ended it stays as it is and leaves the game alone until the next
session begins.
-/
namespace BlockStudio.Script

structure Runtime where
  limits : Limits
  isRunning : Bool
  moment : Moment
  variableValues : Table Float
  functions : Table (List Action)
  touches : Table Binding
  keys : Table Binding
  watchers : Table (List (List Action))
  scores : List ScoreTrigger
  pending : List Task
  lastTaskId : Nat
  /-- How deep watchers are nested. -/
  nesting : Nat
  overlay : Option Overlay
  faults : FaultLog
  random : Random

/-- What is asked of an engine, and a change of the game in between. -/
inductive Call where
  | start (d : Document)
  | update (dt : Float)
  | stop
  | change (f : World → World)

/-- What a call that begins no session changes in a game without one. -/
def Call.changed (w : World) : Call → World
  | .change f => f w
  | _ => w

def Engine.answer (x : Engine × World) : Call → Engine × World
  | .start d => x.1.start d x.2
  | .update dt => x.1.update dt x.2
  | .stop => (x.1.stop, x.2)
  | .change f => (x.1, f x.2)

namespace Runtime

def new (limits : Limits) (random : Random) : Runtime where
  limits
  isRunning := false
  moment := .start
  variableValues := .empty
  functions := .empty
  touches := .empty
  keys := .empty
  watchers := .empty
  scores := []
  pending := []
  lastTaskId := 0
  nesting := 0
  overlay := none
  faults := .empty
  random

/-- Drops all that belongs to a session. -/
def reset (r : Runtime) : Runtime :=
  { r with
    isRunning := false
    moment := .start
    variableValues := .empty
    functions := .empty
    touches := .empty
    keys := .empty
    watchers := .empty
    scores := []
    pending := []
    nesting := 0
    overlay := none }

/-- Ends the session. A runtime without one is left as it is when no task waits. -/
def destroy (r : Runtime) : Runtime := if !r.isRunning && r.pending.isEmpty then r else r.reset

/-- Nothing is left of a session. -/
structure IsBlank (r : Runtime) : Prop where
  moment_eq : r.moment = .start
  variableValues_eq : r.variableValues = .empty
  functions_eq : r.functions = .empty
  touches_eq : r.touches = .empty
  keys_eq : r.keys = .empty
  watchers_eq : r.watchers = .empty
  scores_eq : r.scores = []
  pending_eq : r.pending = []
  nesting_eq : r.nesting = 0
  overlay_eq : r.overlay = none

def program (r : Runtime) : Program := ⟨r.limits, r.functions, r.watchers⟩

def state (r : Runtime) (w : World) : State :=
  ⟨r.variableValues, r.overlay, r.pending, r.lastTaskId, r.faults, r.random, w⟩

def withState (r : Runtime) (nesting : Nat) (s : State) : Runtime :=
  { r with
    variableValues := s.variableValues
    pending := s.pending
    lastTaskId := s.lastTaskId
    nesting
    overlay := s.overlay
    faults := s.faults
    random := s.random }

/-- The engine that the runtime stands for. -/
def engine (r : Runtime) : Engine where
  limits := r.limits
  random := r.random
  lastTaskId := r.lastTaskId
  faults := r.faults
  session :=
    if r.isRunning then
      some ⟨r.program, r.moment, r.touches, r.keys, r.scores, r.variableValues,
        r.overlay, r.pending⟩
    else none

/-- Adds a list to the binding of a name, which is new when it has none. -/
def addToBinding (t : Table Binding) (name : String) (actions : List Action) : Table Binding :=
  let b := (t.get? name).getD ⟨[], false⟩
  t.insert name { b with lists := b.lists ++ [actions] }

def register (r : Runtime) (h : Handler) : Runtime :=
  match h.trigger with
  | .start => r
  | .timer seconds =>
    let id := Number.countUp r.lastTaskId 1
    let task : Task :=
      ⟨id, h.trigger.label, [.begin h.actions], .atTime (r.moment.seconds + seconds)⟩
    { r with lastTaskId := id, pending := r.pending ++ [task] }
  | .touch object => { r with touches := addToBinding r.touches object h.actions }
  | .key name => { r with keys := addToBinding r.keys name h.actions }
  | .variableChanged name => { r with watchers := addToGroup r.watchers (name, h.actions) }
  | .score comparison threshold =>
    { r with scores := r.scores ++ [⟨comparison, threshold, h.actions, false⟩] }
  | .function name => { r with functions := r.functions.insert name h.actions }

/-- Drops what is left of a session, and declares the variables of a document. -/
def declare (r : Runtime) (d : Document) (w : World) : Runtime :=
  { r.reset with
    isRunning := true
    variableValues := (Table.ofList (d.variableNames.map (·, 0))).insert scoreVariable w.score
    faults := .empty }

/-- The runtime with the variables and the handlers of a document, before any list starts. -/
def load (r : Runtime) (d : Document) (w : World) : Runtime :=
  (Handler.ofDocument d).foldl register (r.declare d w)

/-- The beginning of a frame, up to the score triggers. -/
def tick (r : Runtime) (dt : Float) (w : World) : Runtime :=
  { r with
    moment := r.moment.after (frameTime dt)
    variableValues := r.variableValues.insert scoreVariable w.score
    scores := (fireScores w.score r.scores).2
    overlay := r.overlay.bind (·.after? (frameTime dt)) }

def senseTouches (r : Runtime) (w : World) : Runtime :=
  { r with touches := sense w.touchesPlayer r.touches }

def senseKeys (r : Runtime) (w : World) : Runtime := { r with keys := sense w.isKeyDown r.keys }

section
variable (r : Runtime) (w : World)

@[simp] theorem state_withState (nesting : Nat) (s : State) :
    (r.withState nesting s).state s.world = s := rfl

@[simp] theorem program_withState (nesting : Nat) (s : State) :
    (r.withState nesting s).program = r.program := rfl

@[simp] theorem moment_withState (nesting : Nat) (s : State) :
    (r.withState nesting s).moment = r.moment := rfl

@[simp] theorem isRunning_withState (nesting : Nat) (s : State) :
    (r.withState nesting s).isRunning = r.isRunning := rfl

@[simp] theorem touches_withState (nesting : Nat) (s : State) :
    (r.withState nesting s).touches = r.touches := rfl

@[simp] theorem keys_withState (nesting : Nat) (s : State) :
    (r.withState nesting s).keys = r.keys := rfl

@[simp] theorem program_tick (dt : Float) : (r.tick dt w).program = r.program := rfl

@[simp] theorem moment_tick (dt : Float) : (r.tick dt w).moment = r.moment.after (frameTime dt) :=
  rfl

@[simp] theorem isRunning_tick (dt : Float) : (r.tick dt w).isRunning = r.isRunning := rfl

@[simp] theorem touches_tick (dt : Float) : (r.tick dt w).touches = r.touches := rfl

@[simp] theorem keys_tick (dt : Float) : (r.tick dt w).keys = r.keys := rfl

@[simp] theorem state_senseTouches (w' : World) : (r.senseTouches w').state w = r.state w := rfl

@[simp] theorem program_senseTouches : (r.senseTouches w).program = r.program := rfl

@[simp] theorem moment_senseTouches : (r.senseTouches w).moment = r.moment := rfl

@[simp] theorem isRunning_senseTouches : (r.senseTouches w).isRunning = r.isRunning := rfl

@[simp] theorem keys_senseTouches : (r.senseTouches w).keys = r.keys := rfl

@[simp] theorem state_senseKeys (w' : World) : (r.senseKeys w').state w = r.state w := rfl

@[simp] theorem program_senseKeys : (r.senseKeys w).program = r.program := rfl

@[simp] theorem moment_senseKeys : (r.senseKeys w).moment = r.moment := rfl

@[simp] theorem isRunning_senseKeys : (r.senseKeys w).isRunning = r.isRunning := rfl

end

/-- Some duties are worked off, from the nesting that the runtime has. No duty ends the session, so
no run is cut short. -/
inductive Works : Runtime × World → List Duty → Runtime × World → Prop
  | intro {r : Runtime} {w : World} {duties : List Duty} {nesting : Nat}
    {ran : List Ran} {s : State}
    (h : Reaches r.program r.moment ⟨duties, r.nesting, [], [], r.state w⟩
    ⟨[], nesting, [], ran, s⟩) :
    Works (r, w) duties (r.withState nesting s, s.world)

inductive Step : Runtime × World → Call → Runtime × World → Prop
  | start {r : Runtime} {w : World} {d : Document} {x : Runtime × World}
    (h : Works (r.load d w, w) [.start false ((Handler.ofDocument d).filterMap Handler.start?)] x) :
    Step (r, w) (.start d) x
  | idle {r : Runtime} {w : World} {dt : Float}
    (h : r.isRunning = false) : Step (r, w) (.update dt) (r, w)
  | update {r r₁ r₂ r₃ : Runtime} {w w₁ w₂ w₃ : World} {dt : Float} {x : Runtime × World}
    (h : r.isRunning = true)
    (hscores : Works (r.tick dt w, w) [.start true (fireScores w.score r.scores).1] (r₁, w₁))
    (htouches : Works (r₁.senseTouches w₁,
    w₁) [.start true (risen (Trigger.label ∘ .touch) w₁.touchesPlayer r₁.touches)] (r₂, w₂))
    (hkeys : Works (r₂.senseKeys w₂,
    w₂) [.start true (risen (Trigger.label ∘ .key) w₂.isKeyDown r₂.keys)] (r₃, w₃))
    (hlook : Works (r₃, w₃) [.look] x) : Step (r, w) (.update dt) x
  | stop {r : Runtime} {w : World} : Step (r, w) .stop (r.destroy, w)
  | change {r : Runtime} {w : World} {f : World → World} : Step (r, w) (.change f) (r, f w)

/-- A sequence of calls. -/
inductive Run : Runtime × World → List Call → Runtime × World → Prop
  | nil (x : Runtime × World) : Run x [] x
  | cons {x y z : Runtime × World} {c : Call} {cs : List Call} (h : Step x c y)
    (hrest : Run y cs z) : Run x (c :: cs) z

/-- What holds of a runtime between calls. -/
structure AtRest (r : Runtime) : Prop where
  nesting_eq : r.nesting = 0
  blank : r.isRunning = false → r.IsBlank

section
variable {r : Runtime} {w : World} {x : Runtime × World}

/-- Duties that end without watchers left over are worked off in one way. -/
theorem works_iff (hr : r.nesting = 0) {duties : List Duty} {ran : List Ran} {s : State}
    (h : Reaches r.program r.moment ⟨duties, 0, [], [], r.state w⟩ ⟨[], 0, [], ran, s⟩) :
    Works (r, w) duties x ↔ x = (r.withState 0 s, s.world) := by
  rw [← hr] at h
  constructor
  · rintro ⟨h'⟩
    obtain ⟨-, rfl, -, -, rfl⟩ := Agenda.mk.inj (h'.unique rfl h rfl)
    rw [hr]
  · rintro rfl
    have hworks := Works.intro h
    rwa [hr] at hworks

/-- Lists start in one way, and end with no watchers nested. -/
theorem exists_started (hr : r.nesting = 0) (w : World) (lists : List (String × List Action)) :
    ∃ s, s = startAll r.program r.moment lists (r.state w) ∧
      ∀ x, Works (r, w) [.start false lists] x ↔ x = (r.withState 0 s, s.world) := by
  obtain ⟨ran, h⟩ := reaches_startAll (p := r.program) (m := r.moment) lists [] [] [] (r.state w)
  exact ⟨_, rfl, fun _ => works_iff hr h⟩

theorem exists_fired (hr : r.nesting = 0) (w : World) (lists : List (String × List Action)) :
    ∃ s, s = fireAll r.program r.moment lists (r.state w) ∧
      ∀ x, Works (r, w) [.start true lists] x ↔ x = (r.withState 0 s, s.world) := by
  obtain ⟨ran, h⟩ := reaches_fireAll (p := r.program) (m := r.moment) lists [] [] [] (r.state w)
  exact ⟨_, rfl, fun _ => works_iff hr h⟩

theorem exists_looked (hr : r.nesting = 0) (w : World) :
    ∃ s, s = resumeDue r.program r.moment (r.state w) ∧
    ∀ x, Works (r, w) [.look] x ↔ x = (r.withState 0 s, s.world) := by
  obtain ⟨ran, h⟩ := reaches_look (p := r.program) (m := r.moment) [] [] (r.state w)
  exact ⟨_, rfl, fun _ => works_iff hr h⟩

end

/-- The runtime with all that a register has. -/
def filled (r : Runtime) (g : Register) : Runtime :=
  { r.withState r.nesting g.state with
    functions := g.functions
    touches := g.touches.mapValues fun _ lists => ⟨lists, false⟩
    keys := g.keys.mapValues fun _ lists => ⟨lists, false⟩
    watchers := g.watchers
    scores := g.scores }

theorem addToBinding_mapValues (t : Table (List (List Action))) (name : String)
    (actions : List Action) :
    addToBinding (t.mapValues fun _ lists => ⟨lists, false⟩) name actions =
      (addToGroup t (name, actions)).mapValues fun _ lists => ⟨lists, false⟩ := by
  refine Table.ext_get? fun k => ?_
  simp only [addToBinding, addToGroup, Table.get?_mapValues, Table.get?_insert]
  by_cases hk : k = name
  · subst hk
    cases t.get? k <;> simp
  · simp [hk]

theorem register_filled {r : Runtime} (hr : r.moment = .start) (g : Register) (h : Handler) :
    (r.filled g).register h = r.filled (g.add h) := by
  obtain ⟨trigger, actions⟩ := h
  cases trigger with
  | timer seconds =>
    simp [register, filled, withState, Register.add, State.addTimer, State.takeTaskId, State.keep,
      hr, Handler.labelled]
  | touch object => simp [register, filled, withState, Register.add, addToBinding_mapValues]
  | key name => simp [register, filled, withState, Register.add, addToBinding_mapValues]
  | _ => rfl

theorem foldl_register_filled {r : Runtime} (hr : r.moment = .start)
    (hs : List Handler) (g : Register) :
    hs.foldl register (r.filled g) = r.filled (hs.foldl Register.add g) := by
  induction hs generalizing g with
  | nil => rfl
  | cons h hs ih => rw [List.foldl_cons, register_filled hr, ih, List.foldl_cons]

theorem world_foldl_add (hs : List Handler) (g : Register) :
    (hs.foldl Register.add g).state.world = g.state.world := by
  induction hs generalizing g with
  | nil => rfl
  | cons h hs ih =>
    rw [List.foldl_cons, ih]
    obtain ⟨trigger, actions⟩ := h
    cases trigger <;> rfl

theorem load_eq_filled (r : Runtime) (d : Document) (w : World) : r.load d w =
    (r.declare d w).filled
      ((Handler.ofDocument d).foldl Register.add (.blank ((r.declare d w).state w))) :=
  foldl_register_filled (r := r.declare d w) rfl (Handler.ofDocument d)
    (.blank ((r.declare d w).state w))

theorem isBlank_reset (r : Runtime) : r.reset.IsBlank :=
  ⟨rfl, rfl, rfl, rfl, rfl, rfl, rfl, rfl, rfl, rfl⟩

section
variable {r : Runtime} {w : World}

/-- Exactly one thing comes of a call: a runtime at rest that stands for the engine that the call
gives. -/
structure Answers (r : Runtime) (w : World) (c : Call) (r' : Runtime) (w' : World) : Prop where
  step_iff : ∀ x, Step (r, w) c x ↔ x = (r', w')
  atRest : r'.AtRest
  engine_eq : (r'.engine, w') = Engine.answer (r.engine, w) c

theorem answers_start (d : Document) : ∃ r' w', r.Answers w (.start d) r' w' := by
  obtain ⟨g, hg⟩ : ∃ g, g =
      (Handler.ofDocument d).foldl Register.add (.blank ((r.declare d w).state w)) := ⟨_, rfl⟩
  have hload : r.load d w = (r.declare d w).filled g := hg ▸ r.load_eq_filled d w
  have hworld : g.state.world = w := hg ▸ world_foldl_add _ _
  have hstarts : g.starts = (Handler.ofDocument d).filterMap Handler.start? := by
    rw [hg, Register.foldl_add]
    rfl
  have hrest : (r.load d w).nesting = 0 := by
    rw [hload]
    rfl
  obtain ⟨s, hs, hworks⟩ := exists_started hrest w g.starts
  refine ⟨(r.load d w).withState 0 s, s.world, fun x => ⟨?_, ?_⟩, ⟨rfl, fun h => ?_⟩, ?_⟩
  · rintro ⟨h⟩
    rw [← hstarts] at h
    exact (hworks x).1 h
  · rintro rfl
    refine .start ?_
    rw [← hstarts]
    exact (hworks _).2 rfl
  · rw [hload] at h
    cases h
  · replace hs : s = startAll ⟨r.limits, g.functions, g.watchers⟩ .start g.starts g.state := by
      rw [hs, hload, ← hworld]
      rfl
    have hblank : State.mirrorScore ⟨.ofList (d.variableNames.map (·, 0)), none, [],
        r.engine.lastTaskId, .empty, r.engine.random, w⟩ = (r.declare d w).state w := rfl
    rw [hload, Engine.answer, Engine.start, Session.begin_eq_foldl_add, hblank, ← hg, hs]
    rfl

theorem answers_update_of_running (hr : r.AtRest) (hrunning : r.isRunning = true) (dt : Float) :
    ∃ r' w', r.Answers w (.update dt) r' w' := by
  obtain ⟨s₁, hs₁, hscores⟩ :=
    exists_fired (r := r.tick dt w) hr.nesting_eq w (fireScores w.score r.scores).1
  let r₁ := (r.tick dt w).withState 0 s₁
  obtain ⟨s₂, hs₂, htouches⟩ := exists_fired (r := r₁.senseTouches s₁.world) rfl s₁.world
    (risen (Trigger.label ∘ .touch) s₁.world.touchesPlayer r₁.touches)
  let r₂ := (r₁.senseTouches s₁.world).withState 0 s₂
  obtain ⟨s₃, hs₃, hkeys⟩ := exists_fired (r := r₂.senseKeys s₂.world) rfl s₂.world
    (risen (Trigger.label ∘ .key) s₂.world.isKeyDown r₂.keys)
  let r₃ := (r₂.senseKeys s₂.world).withState 0 s₃
  obtain ⟨s₄, hs₄, hlook⟩ := exists_looked (r := r₃) rfl s₃.world
  refine ⟨r₃.withState 0 s₄, s₄.world, fun x => ⟨?_, ?_⟩, ⟨rfl, fun h => ?_⟩, ?_⟩
  · rintro (_ | h | ⟨-, hscores', htouches', hkeys', hlook'⟩)
    · rw [hrunning] at h
      cases h
    · obtain ⟨rfl, rfl⟩ := Prod.mk.inj ((hscores _).1 hscores')
      obtain ⟨rfl, rfl⟩ := Prod.mk.inj ((htouches _).1 htouches')
      obtain ⟨rfl, rfl⟩ := Prod.mk.inj ((hkeys _).1 hkeys')
      exact (hlook _).1 hlook'
  · rintro rfl
    exact .update hrunning ((hscores _).2 rfl) ((htouches _).2 rfl)
      ((hkeys _).2 rfl) ((hlook _).2 rfl)
  · simp [r₁, r₂, r₃, hrunning] at h
  · let m := r.moment.after (frameTime dt)
    replace hs₁ : s₁ = fireAll r.program m (fireScores w.score r.scores).1
      ((r.tick dt w).state w) := hs₁
    replace hs₂ : s₂ =
      fireAll r.program m (risen (Trigger.label ∘ .touch) s₁.world.touchesPlayer r.touches) s₁ := by
      simpa [r₁] using hs₂
    replace hs₃ : s₃ =
      fireAll r.program m (risen (Trigger.label ∘ .key) s₂.world.isKeyDown r.keys) s₂ := by
      simpa [r₁, r₂] using hs₃
    replace hs₄ : s₄ = resumeDue r.program m s₃ := by simpa [r₁, r₂, r₃] using hs₄
    cases r
    subst hrunning hs₄ hs₃ hs₂ hs₁
    rfl

theorem answers_update_of_idle (hr : r.AtRest) (hidle : r.isRunning = false) (dt : Float) :
    r.Answers w (.update dt) r w := by
  refine ⟨fun x => ⟨?_, ?_⟩, hr, ?_⟩
  · rintro (_ | _ | ⟨hrunning, -, -, -, -⟩)
    · rfl
    · rw [hidle] at hrunning
      cases hrunning
  · rintro rfl
    exact .idle hidle
  · simp [Engine.answer, Engine.update, engine, hidle]

theorem destroy_of_isRunning (h : r.isRunning = true) : r.destroy = r.reset := by simp [destroy, h]

/-- What is not running is empty, so to leave it as it is comes to the same as to empty it. -/
theorem AtRest.destroy_of_idle (hr : r.AtRest) (h : r.isRunning = false) : r.destroy = r := by
  simp [destroy, h, (hr.blank h).pending_eq]

theorem answers_stop (hr : r.AtRest) : r.Answers w .stop r.destroy w := by
  have hstep : ∀ x, Step (r, w) .stop x ↔ x = (r.destroy, w) := by
    refine fun x => ⟨?_, ?_⟩
    · rintro ⟨⟩
      rfl
    · rintro rfl
      exact .stop
  cases h : r.isRunning with
  | true =>
    refine ⟨hstep, ?_, ?_⟩ <;> rw [destroy_of_isRunning h]
    · exact ⟨rfl, fun _ => r.isBlank_reset⟩
    · rfl
  | false =>
    refine ⟨hstep, ?_, ?_⟩ <;> rw [hr.destroy_of_idle h]
    · exact hr
    · simp [Engine.answer, Engine.stop, engine, h]

theorem answers_change (hr : r.AtRest) (f : World → World) : r.Answers w (.change f) r (f w) := by
  refine ⟨fun x => ⟨?_, ?_⟩, hr, rfl⟩
  · rintro ⟨⟩
    rfl
  · rintro rfl
    exact .change

theorem AtRest.exists_answers (hr : r.AtRest) (c : Call) : ∃ r' w', r.Answers w c r' w' := by
  cases c with
  | start d => exact answers_start d
  | update dt =>
    cases h : r.isRunning with
    | true => exact answers_update_of_running hr h dt
    | false => exact ⟨r, w, answers_update_of_idle hr h dt⟩
  | stop => exact ⟨r.destroy, w, answers_stop hr⟩
  | change f => exact ⟨r, f w, answers_change hr f⟩

theorem atRest_new (limits : Limits) (random : Random) : (new limits random).AtRest :=
  ⟨rfl, fun _ => ⟨rfl, rfl, rfl, rfl, rfl, rfl, rfl, rfl, rfl, rfl⟩⟩

theorem run_cons_iff {r' : Runtime} {w' : World} {c : Call} {cs : List Call} {x : Runtime × World}
    (h : ∀ y, Step (r, w) c y ↔ y = (r', w')) : Run (r, w) (c :: cs) x ↔ Run (r', w') cs x := by
  constructor
  · rintro (_ | ⟨hstep, hrest⟩)
    obtain rfl := (h _).1 hstep
    exact hrest
  · exact fun hrest => .cons ((h _).2 rfl) hrest

/-- Calls have one outcome, between any two of them the runtime is at rest, and the engine gives the
same. -/
theorem AtRest.exists_run (hr : r.AtRest) (cs : List Call) :
    ∃ r' w', (∀ x, Run (r, w) cs x ↔ x = (r', w')) ∧
    r'.AtRest ∧ (r'.engine, w') = cs.foldl Engine.answer (r.engine, w) := by
  induction cs generalizing r w with
  | nil =>
    refine ⟨r, w, fun x => ⟨?_, ?_⟩, hr, rfl⟩
    · rintro ⟨⟩
      rfl
    · rintro rfl
      exact .nil _
  | cons c cs ih =>
    obtain ⟨r₁, w₁, h⟩ := hr.exists_answers c (w := w)
    obtain ⟨r₂, w₂, hrun, hrest, hengine⟩ := ih h.atRest (w := w₁)
    refine ⟨r₂, w₂, fun x => (run_cons_iff h.step_iff).trans (hrun x), hrest, ?_⟩
    rw [hengine, h.engine_eq, List.foldl_cons]

/-- A runtime at rest that does not run stays as it is while no session begins. -/
theorem AtRest.run_of_idle (hr : r.AtRest) (hidle : r.isRunning = false) {cs : List Call}
    (hcs : ∀ d, .start d ∉ cs) (x : Runtime × World) :
    Run (r, w) cs x ↔ x = (r, cs.foldl Call.changed w) := by
  induction cs generalizing w with
  | nil =>
    constructor
    · rintro ⟨⟩
      rfl
    · rintro rfl
      exact .nil _
  | cons c cs ih =>
    have hstep : ∀ y, Step (r, w) c y ↔ y = (r, c.changed w) := by
      cases c with
      | start d => exact absurd List.mem_cons_self (hcs d)
      | update dt => exact (answers_update_of_idle hr hidle dt).step_iff
      | stop =>
        have hstop := (answers_stop hr (w := w)).step_iff
        rw [hr.destroy_of_idle hidle] at hstop
        exact hstop
      | change f => exact (answers_change hr f).step_iff
    rw [run_cons_iff hstep, ih fun d hd => hcs d (List.mem_cons_of_mem c hd), List.foldl_cons]

end

/-- Whatever is asked of a new runtime, it comes to one state, and the engine to the same one.
There, if no session runs, nothing is left of any: no tasks, variables, functions, triggers and
message, the clock at its start and no watchers nested. So once it has been told to stop, the
runtime stays as it is and the game is as it is changed from outside, until a session begins. -/
theorem teardown_is_final (limits : Limits) (random : Random) (w : World) (calls : List Call) :
    ∃ r w', (∀ x, Run (.new limits random, w) calls x ↔ x = (r, w')) ∧
      (r.engine, w') = calls.foldl Engine.answer (⟨limits, random, 0, .empty, none⟩, w) ∧
      (r.isRunning = false → r.IsBlank) ∧ r.destroy.isRunning = false ∧ r.destroy.IsBlank ∧
      ∀ later, (∀ d, .start d ∉ later) →
        (∀ x, Run (r.destroy, w') later x ↔ x = (r.destroy, later.foldl Call.changed w')) ∧
        later.foldl Engine.answer (r.engine.stop, w') =
          (r.engine.stop, later.foldl Call.changed w') := by
  obtain ⟨r, w', hrun, hr, hengine⟩ := (atRest_new limits random).exists_run calls (w := w)
  have hstop := answers_stop hr (w := w')
  have hidle : r.destroy.isRunning = false := by
    cases h : r.isRunning with
    | true =>
      rw [destroy_of_isRunning h]
      rfl
    | false => rw [hr.destroy_of_idle h, h]
  refine ⟨r, w', hrun, hengine, hr.blank, hidle, hstop.atRest.blank hidle, fun later hlater => ?_⟩
  have hlast := hstop.atRest.run_of_idle hidle hlater (w := w')
  refine ⟨hlast, ?_⟩
  obtain ⟨r'', w'', hrun', -, hengine'⟩ := hstop.atRest.exists_run later (w := w')
  obtain ⟨rfl, rfl⟩ := Prod.mk.inj ((hlast _).1 ((hrun' _).2 rfl))
  have hstopped : r.destroy.engine = r.engine.stop := congrArg Prod.fst hstop.engine_eq
  rw [← hstopped, ← hengine']

/-- A timer, and a key that sets a variable. -/
def lateDocument : Document where
  chains :=
    [⟨1, 0, 0, [⟨(), "on_timer", .ofList [("seconds", "1")], none, none⟩]⟩,
    ⟨2, 0, 0, [⟨(), "on_key", .ofList [("key", "space")], none, none⟩,
      ⟨(), "set_var", .ofList [("name", "late"), ("value", "3")], none, none⟩]⟩]
  variableNames := ["late"]

/-- A timer waits when the session ends; the key and the time that come later start nothing. -/
theorem teardown_is_final_lateDocument :
    let later : List Call := [.change (·.pressKey "space"), .update 0.5, .stop, .update 1]
    ∃ r w, (∀ x, Run (.new .standard (.ofSeed 7), .empty) [.start lateDocument] x ↔ x = (r, w)) ∧
      r.engine.isRunning = true ∧ r.engine.pendingCount = 1 ∧
      r.engine.variableValues.contains "late" = true ∧
      (∀ d, .start d ∉ later) ∧ r.destroy.IsBlank ∧
      ∀ x, Run (r.destroy, w) later x ↔ x = (r.destroy, w.pressKey "space") := by
  intro later
  obtain ⟨r, w, hrun, hengine, -, -, hblank, hfinal⟩ :=
    teardown_is_final .standard (.ofSeed 7) .empty [.start lateDocument]
  have hlater : ∀ d, .start d ∉ later := by simp [later]
  have hr : r.engine =
      ((⟨.standard, .ofSeed 7, 0, .empty, none⟩ : Engine).start lateDocument .empty).1 :=
    congrArg Prod.fst hengine
  refine ⟨r, w, hrun, ?_, ?_, ?_, hlater, hblank, (hfinal later hlater).1⟩ <;>
    rw [hr] <;> decide +kernel

end Runtime

end BlockStudio.Script
