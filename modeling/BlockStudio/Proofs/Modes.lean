import BlockStudio.Proofs.Plays
import BlockStudio.Studio

/-!
Modes and sessions. The parts of a frame ask for modes in any order and overwrite what was asked for
before, but only the change at the beginning of a frame begins or ends a session. Main statement: a
session runs just while the game is played, it is counted when the mode is entered, and in a frame
that does not play no script has changed the game.
-/
namespace BlockStudio

namespace Script.Engine

theorem isRunning_update (e : Engine) (seconds : Float) (w : World) :
    (e.update seconds w).1.isRunning = e.isRunning := by
  unfold update
  split
  · rfl
  · rename_i s hs
    simp [resume, isRunning, hs]

theorem isRunning_stop (e : Engine) : e.stop.isRunning = false := rfl

theorem stop_of_not_isRunning {e : Engine} (h : e.isRunning = false) : e.stop = e := by
  obtain ⟨limits, random, lastTaskId, faults, session⟩ := e
  obtain rfl : session = none := by simpa [isRunning] using h
  rfl

/-- An engine that does not run has no tasks, no message and no variables. -/
theorem idle_of_not_isRunning {e : Engine} (h : e.isRunning = false) :
    e.pendingCount = 0 ∧ e.overlay = none ∧ e.variableValues = .empty := by
  rw [← stop_of_not_isRunning h]
  exact ⟨rfl, rfl, rfl⟩

end Script.Engine

theorem Number.countUp_zero {n : Nat} (h : n ≤ counterMax) : countUp n 0 = n := by
  rw [countUp_of_le (by omega), Nat.add_zero]

/-- How often a sequence of steps enters the playing mode. -/
def playsBegun {σ ι : Type} (mode : σ → Mode) (step : σ → ι → σ) : σ → List ι → Nat
  | _, [] => 0
  | s, i :: is =>
    (if mode s ≠ .playing ∧ mode (step s i) = .playing then 1 else 0) +
      playsBegun mode step (step s i) is

namespace Game

/-- A session runs just while the game is played, and else nothing is left of one. -/
structure IsCoupled (g : Game) : Prop where
  running_iff : g.engine.isRunning = true ↔ g.mode = .playing
  idle : g.mode ≠ .playing → g.engine.pendingCount = 0 ∧ g.engine.overlay = none ∧
    g.engine.variableValues = .empty

/-- A game comes to another one with its session in step: sessions are counted as they are entered,
and unless the game is played now it has the world `w` and the engine has done nothing but stop. -/
structure Leads (g : Game) (w : World) (g' : Game) : Prop where
  coupled : g'.IsCoupled
  plays_eq : g'.plays =
    Number.countUp g.plays (if g.mode ≠ .playing ∧ g'.mode = .playing then 1 else 0)
  unscripted : g'.mode ≠ .playing → g'.world = w ∧ g'.engine = g.engine.stop

/-- What happens to a game, in a frame or between frames. -/
inductive Part where
  | changeMode (scene : Option Scene) (canvas : Option Document)
  | tick (seconds : Float)
  | request (r : Request)
  | answer
  | finish
  | edit (change : World → World)
  | load (d : Document)

/-- The game after a part of a frame. -/
def take (g : Game) : Part → Game
  | .changeMode scene canvas => g.changeMode scene canvas
  | .tick seconds => g.tick seconds
  | .request r => g.request r
  | .answer => g.handleRequests
  | .finish => g.finish
  | .edit change => { g with world := change g.world }
  | .load d => { g with active := some d }

/-- The world after a part of a frame in which no script runs. -/
def worldWithoutScripts (g : Game) : Part → World
  | .changeMode scene _ =>
    if g.mode = .playing then (scene.map (·.setUp g.world)).getD g.world else g.world
  | .edit change => change g.world
  | _ => g.world

/-- A game stays in its mode, with its session. Unless it is played it has the world `w` then and
the engine has done nothing. -/
structure GoesOn (g : Game) (w : World) (g' : Game) : Prop where
  mode_eq : g'.mode = g.mode
  plays_eq : g'.plays = g.plays
  running_eq : g'.engine.isRunning = g.engine.isRunning
  idle : g.mode ≠ .playing → g'.world = w ∧ g'.engine = g.engine

theorem isCoupled_of_running_iff {g : Game} (h : g.engine.isRunning = true ↔ g.mode = .playing) :
    g.IsCoupled := by
  refine ⟨h, fun hmode => Script.Engine.idle_of_not_isRunning ?_⟩
  rwa [← Bool.not_eq_true, h]

theorem IsCoupled.stop_eq {g : Game} (h : g.IsCoupled) (hmode : g.mode ≠ .playing) :
    g.engine.stop = g.engine := by
  refine Script.Engine.stop_of_not_isRunning ?_
  rwa [← Bool.not_eq_true, h.running_iff]

namespace GoesOn
variable {g g' g'' : Game} {w : World}

theorem refl (g : Game) : g.GoesOn g.world g := ⟨rfl, rfl, rfl, fun _ => ⟨rfl, rfl⟩⟩

theorem trans (h : g.GoesOn w g') (h' : g'.GoesOn g'.world g'') : g.GoesOn w g'' where
  mode_eq := h'.mode_eq.trans h.mode_eq
  plays_eq := h'.plays_eq.trans h.plays_eq
  running_eq := h'.running_eq.trans h.running_eq
  idle hmode := by
    obtain ⟨hworld, hengine⟩ := h.idle hmode
    obtain ⟨hworld', hengine'⟩ := h'.idle (h.mode_eq ▸ hmode)
    exact ⟨hworld'.trans hworld, hengine'.trans hengine⟩

theorem leads (h : g.GoesOn w g') (hg : g.IsCoupled) (hplays : g.plays ≤ Number.counterMax) :
    g.Leads w g' := by
  refine ⟨isCoupled_of_running_iff ?_, ?_, fun hmode => ?_⟩
  · rw [h.running_eq, h.mode_eq, hg.running_iff]
  · rw [h.mode_eq, h.plays_eq, if_neg fun hboth => hboth.1 hboth.2, Number.countUp_zero hplays]
  · rw [h.mode_eq] at hmode
    rw [hg.stop_eq hmode]
    exact h.idle hmode

end GoesOn

theorem Leads.goesOn {g g' g'' : Game} {w : World} (h : g.Leads w g')
    (h' : g'.GoesOn g'.world g'') :
    g.Leads w g'' := by
  refine ⟨isCoupled_of_running_iff ?_, ?_, fun hmode => ?_⟩
  · rw [h'.running_eq, h'.mode_eq, h.coupled.running_iff]
  · rw [h'.plays_eq, h'.mode_eq, h.plays_eq]
  · rw [h'.mode_eq] at hmode
    obtain ⟨hworld, hengine⟩ := h.unscripted hmode
    obtain ⟨hworld', hengine'⟩ := h'.idle hmode
    exact ⟨hworld'.trans hworld, hengine'.trans hengine⟩

theorem goesOn_handle (g : Game) (r : Request) : g.GoesOn g.world (g.handle r) := by
  unfold handle
  split <;> exact ⟨rfl, rfl, rfl, fun _ => ⟨rfl, rfl⟩⟩

theorem goesOn_request (g : Game) (r : Request) : g.GoesOn g.world (g.request r) :=
  ⟨rfl, rfl, rfl, fun _ => ⟨rfl, rfl⟩⟩

theorem goesOn_handleRequests (g : Game) : g.GoesOn g.world g.handleRequests :=
  List.foldlRecOn (b := ({ g with requests := [] } : Game)) g.requests handle
    (motive := g.GoesOn g.world) ⟨rfl, rfl, rfl, fun _ => ⟨rfl, rfl⟩⟩ fun g' h r _ =>
      h.trans (g'.goesOn_handle r)

theorem goesOn_finish (g : Game) : g.GoesOn g.world g.finish := by
  unfold finish
  split <;> exact ⟨rfl, rfl, rfl, fun _ => ⟨rfl, rfl⟩⟩

theorem goesOn_endFrame (g : Game) : g.GoesOn g.world g.endFrame :=
  g.goesOn_handleRequests.trans g.handleRequests.goesOn_finish

/-- A session that is there advances, and none begins. -/
theorem goesOn_tick (g : Game) (seconds : Float) : g.GoesOn g.world (g.tick seconds) := by
  unfold tick
  split
  · rename_i hmode
    exact ⟨rfl, rfl, Script.Engine.isRunning_update _ _ _, fun hother => absurd hmode hother⟩
  · exact .refl g

theorem enter_of_ne (g : Game) {m : Mode} (hm : m ≠ .playing) (d : Document) :
    (g.enter m d).mode = m ∧ (g.enter m d).engine = g.engine ∧ (g.enter m d).plays = g.plays ∧
      (g.enter m d).world = g.world := by
  cases m with
  | playing => contradiction
  | editing =>
    simp only [enter]
    split <;> exact ⟨rfl, rfl, rfl, rfl⟩
  | gameOver => exact ⟨rfl, rfl, rfl, rfl⟩

/-- Entering the playing mode begins a session. -/
theorem enter_leads {g : Game} (h : g.mode ≠ .playing) (m : Mode) (d : Document)
    (hcoupled : g.IsCoupled) (hplays : g.plays ≤ Number.counterMax) :
    g.Leads g.world (g.enter m d) := by
  by_cases hm : m = .playing
  · subst hm
    refine ⟨isCoupled_of_running_iff ⟨fun _ => rfl, fun _ => rfl⟩, ?_,
      fun hother => absurd rfl hother⟩
    rw [if_pos ⟨h, rfl⟩]
    rfl
  · obtain ⟨hmode, hengine, hcount, hworld⟩ := g.enter_of_ne hm d
    refine ⟨isCoupled_of_running_iff ?_, ?_, fun _ => ⟨hworld, ?_⟩⟩
    · rw [hmode, hengine, hcoupled.running_iff]
      exact ⟨fun hplaying => absurd hplaying h, fun hplaying => absurd hplaying hm⟩
    · rw [if_neg fun hboth => hm (hmode ▸ hboth.2), hcount, Number.countUp_zero hplays]
    · rw [hengine, hcoupled.stop_eq h]

/-- Leaving the playing mode ends the session. -/
theorem leave_enter_leads {g : Game} (h : g.mode = .playing) {m : Mode} (hm : m ≠ .playing)
    (scene : Option Scene) (d : Document) (hplays : g.plays ≤ Number.counterMax) :
    g.Leads ((scene.map (·.setUp g.world)).getD g.world) ((g.leave scene).enter m d) := by
  have hleave : g.leave scene =
      { g with engine := g.engine.stop, world := (scene.map (·.setUp g.world)).getD g.world } := by
    simp only [leave, h]
  obtain ⟨hmode, hengine, hcount, hworld⟩ := (g.leave scene).enter_of_ne hm d
  rw [hleave] at hmode hengine hcount hworld ⊢
  refine ⟨isCoupled_of_running_iff ?_, ?_, fun _ => ⟨hworld, hengine⟩⟩
  · rw [hmode, hengine, Script.Engine.isRunning_stop]
    exact ⟨fun hrunning => by contradiction, fun hplaying => absurd hplaying hm⟩
  · rw [if_neg fun hboth => hboth.1 h, hcount, Number.countUp_zero hplays]

/-- Whichever mode was asked for, a session ends as the playing mode is left and begins as it is
entered. -/
theorem changeMode_leads {g : Game} (h : g.IsCoupled) (hplays : g.plays ≤ Number.counterMax)
    (scene : Option Scene) (canvas : Option Document) :
    g.Leads (g.worldWithoutScripts (.changeMode scene canvas)) (g.changeMode scene canvas) := by
  have hstays : ∀ g' : Game, g.GoesOn g.world g' →
      g.Leads (g.worldWithoutScripts (.changeMode scene canvas)) g' := by
    intro g' hsame
    have hleads := hsame.leads h hplays
    refine ⟨hleads.coupled, hleads.plays_eq, fun hmode => ?_⟩
    rw [worldWithoutScripts, if_neg (hsame.mode_eq ▸ hmode)]
    exact hleads.unscripted hmode
  unfold changeMode
  cases hnext : g.nextMode with
  | none => exact hstays g (.refl g)
  | some m =>
    dsimp only
    split
    · exact hstays _ ⟨rfl, rfl, rfl, fun _ => ⟨rfl, rfl⟩⟩
    · rename_i hm
      by_cases hmode : g.mode = .playing
      · rw [worldWithoutScripts, if_pos hmode]
        have hother : m ≠ .playing := fun hplaying => hm (hplaying.trans hmode.symm)
        obtain ⟨hcoupled, hcount, hworld⟩ :=
          leave_enter_leads (g := { g with nextMode := none }) hmode hother scene
            (canvas.getD (g.active.getD .empty)) hplays
        exact ⟨hcoupled, hcount, hworld⟩
      · rw [worldWithoutScripts, if_neg hmode]
        have hleave : ({ g with nextMode := none } : Game).leave scene =
            { g with nextMode := none } := by
          unfold leave
          split
          · contradiction
          · rfl
        rw [hleave]
        obtain ⟨hcoupled, hcount, hworld⟩ :=
          enter_leads (g := { g with nextMode := none }) hmode m
            (canvas.getD (g.active.getD .empty)) ⟨h.1, h.2⟩ hplays
        exact ⟨hcoupled, hcount, hworld⟩

/-- Whatever happens to a game, its session stays in step with its mode. -/
theorem take_leads {g : Game} (h : g.IsCoupled)
    (hplays : g.plays ≤ Number.counterMax) (part : Part) :
    g.Leads (g.worldWithoutScripts part) (g.take part) := by
  cases part with
  | changeMode scene canvas => exact changeMode_leads h hplays scene canvas
  | tick seconds => exact (g.goesOn_tick seconds).leads h hplays
  | request r => exact (g.goesOn_request r).leads h hplays
  | answer => exact g.goesOn_handleRequests.leads h hplays
  | finish => exact g.goesOn_finish.leads h hplays
  | edit change => exact GoesOn.leads ⟨rfl, rfl, rfl, fun _ => ⟨rfl, rfl⟩⟩ h hplays
  | load d => exact GoesOn.leads ⟨rfl, rfl, rfl, fun _ => ⟨rfl, rfl⟩⟩ h hplays

/-- What each step leads on with, all steps do, and the sessions are as many as the playing mode is
entered. -/
theorem coupled_foldl {σ ι : Type} (game : σ → Game) (step : σ → ι → σ)
    (hstep : ∀ s i, (game s).IsCoupled → (game s).plays ≤ Number.counterMax →
      ∃ w, (game s).Leads w (game (step s i)))
    (is : List ι) {s : σ} (h : (game s).IsCoupled) (hplays : (game s).plays ≤ Number.counterMax) :
    (game (is.foldl step s)).IsCoupled ∧ (game (is.foldl step s)).plays =
      min ((game s).plays + playsBegun (fun s => (game s).mode) step s is) Number.counterMax := by
  induction is generalizing s with
  | nil => exact ⟨h, by simp only [List.foldl_nil, playsBegun]; omega⟩
  | cons i is ih =>
    obtain ⟨w, hleads⟩ := hstep s i h hplays
    have hnext : (game (step s i)).plays ≤ Number.counterMax := by
      rw [hleads.plays_eq]
      exact Number.countUp_le_max _ _
    obtain ⟨hcoupled, hcount⟩ := ih hleads.coupled hnext
    refine ⟨hcoupled, ?_⟩
    rw [List.foldl_cons, hcount, hleads.plays_eq, playsBegun, Number.countUp]
    omega

end Game

namespace Studio

/-- What happens to a studio: requests and texts from outside, its devices, changes of the game and
of the canvas, and frames. -/
inductive Input where
  | request (r : Request)
  | load (d : Document)
  | changeFile (source : String)
  | pressKey (k : KeyCode)
  | releaseKey (k : KeyCode)
  | pressButton (b : MouseButton)
  | releaseButton (b : MouseButton)
  | moveCursor (p : Option Point)
  | turnWheel (y : Float32)
  | closeWindow
  | editWorld (change : World → World)
  | putObject (id : ObjectId) (o : GameObject)
  | edit (change : Editor → Editor)
  | frame (elapsed : Nat)

def handle (s : Studio) : Input → Studio
  | .request r => { s with game := s.game.request r }
  | .load d => { s with game := { s.game with active := some d } }
  | .changeFile source => { s with changes := s.changes ++ [source] }
  | .pressKey k => { s with keys := s.keys.press k }
  | .releaseKey k => { s with keys := s.keys.release k }
  | .pressButton b => { s with mouse := s.mouse.press b }
  | .releaseButton b => { s with mouse := s.mouse.release b }
  | .moveCursor p => s.moveCursor p
  | .turnWheel y => { s with wheel := s.wheel.push y }
  | .closeWindow => s.closeWindow
  | .editWorld change => s.editWorld change
  | .putObject id o => s.putObject id o
  | .edit change => { s with editor := s.editor.map change }
  | .frame elapsed => s.frame elapsed

/-- The world that a frame begins with: the first one sets the scene up, and each knows the keys
that are held. -/
def frameWorld (s : Studio) : World :=
  { (if s.clock.running then s.game.world
    else s.scene.setUp s.game.world) with keys := s.scriptKeys }

/-- The world after a frame in which no script runs. -/
def worldWithoutScripts (s : Studio) : World :=
  if s.game.mode = .playing then s.scene.setUp s.frameWorld else s.frameWorld

theorem game_syncObjects (s : Studio) : s.syncObjects.game = s.game := by
  unfold syncObjects
  split
  · rfl
  · split <;> rfl

theorem game_drivePointer (s : Studio) : s.drivePointer.game = s.game := by
  unfold drivePointer
  split
  · split
    · split <;> rfl
    · rfl
  · rfl

theorem game_save (s : Studio) : s.save.game = s.game := by
  unfold save
  split
  · rfl
  · dsimp only
    split <;> rfl

theorem goesOn_answerKeys (s : Studio) : s.game.GoesOn s.game.world s.answerKeys.game := by
  unfold answerKeys
  split
  · exact s.game.goesOn_request _
  · exact .refl _

theorem goesOn_movePlayer (s : Studio) (seconds : Float32) :
    s.game.GoesOn s.game.world (s.movePlayer seconds).game := by
  unfold movePlayer
  split
  · rename_i hmode
    exact ⟨rfl, rfl, rfl, fun hother => absurd (by simpa using hmode) hother⟩
  · exact .refl _

theorem goesOn_reload (s : Studio) (source : String) :
    s.game.GoesOn s.game.world (s.reload source).game := by
  unfold reload
  split
  · exact .refl _
  · split
    · exact .refl _
    · dsimp only
      split <;> exact ⟨rfl, rfl, rfl, fun _ => ⟨rfl, rfl⟩⟩

theorem goesOn_takeChanges (s : Studio) : s.game.GoesOn s.game.world s.takeChanges.game := by
  unfold takeChanges
  dsimp only
  split
  · exact .refl _
  · rename_i source _
    exact goesOn_reload { s with changes := s.changes.drop changesPerFrame } source

/-- What is left of a frame when the mode has changed and the session has advanced. -/
def settle (s : Studio) (seconds : Float32) : Studio :=
  let s := (s.syncObjects.drivePointer).answerKeys
  let s : Studio := { s with game := s.game.endFrame }
  ((s.save.draw).movePlayer seconds).takeChanges

/-- Later in a frame no session begins or ends. -/
theorem goesOn_settle (s : Studio) (seconds : Float32) :
    s.game.GoesOn s.game.world (s.settle seconds).game := by
  let answered := s.syncObjects.drivePointer.answerKeys
  let ended : Studio := { answered with game := answered.game.endFrame }
  have hanswered : s.game.GoesOn s.game.world answered.game := by
    have hpointer : s.syncObjects.drivePointer.game = s.game := by
      rw [game_drivePointer, game_syncObjects]
    exact hpointer ▸ s.syncObjects.drivePointer.goesOn_answerKeys
  have hended : answered.game.GoesOn answered.game.world ended.game := Game.goesOn_endFrame _
  have hdrawn : ended.game.GoesOn ended.game.world ended.save.draw.game := ended.game_save ▸ .refl _
  exact (((hanswered.trans hended).trans hdrawn).trans (goesOn_movePlayer _ seconds)).trans
    (goesOn_takeChanges _)

/-- A frame keeps the session in step with the mode. -/
theorem frame_leads {s : Studio} (h : s.game.IsCoupled)
    (hplays : s.game.plays ≤ Number.counterMax) (elapsed : Nat) :
    s.game.Leads s.worldWithoutScripts (s.frame elapsed).game := by
  let g : Game := { s.game with world := s.frameWorld }
  let canvas := s.editor.map (·.toDocument)
  let time := s.prepare.clock.frameTime elapsed
  have hbegin : s.game.Leads s.worldWithoutScripts
      (g.beginFrame (some s.scene) canvas (Clock.seconds time)) := by
    have hchange : g.Leads s.worldWithoutScripts (g.changeMode (some s.scene) canvas) :=
      Game.changeMode_leads (g := g) ⟨h.1, h.2⟩ hplays (some s.scene) canvas
    obtain ⟨hcoupled, hcount, hworld⟩ := hchange.goesOn (Game.goesOn_tick _ (Clock.seconds time))
    exact ⟨hcoupled, hcount, hworld⟩
  have hframe : ∃ s' : Studio, s'.game = g.beginFrame (some s.scene) canvas (Clock.seconds time) ∧
      (s.frame elapsed).game = (s'.settle (Clock.secondsSingle time)).game := by
    refine ⟨Studio.advance { s.prepare with
      wheel := s.prepare.wheel.turn.noteBeat (s.prepare.clock.beats time)
      clock := s.prepare.clock.after time } (Clock.seconds time), ?_, rfl⟩
    simp only [advance, editWorld, prepare, g, frameWorld, canvas]
    split <;> rfl
  obtain ⟨s', hgame, hsettle⟩ := hframe
  rw [hsettle]
  rw [← hgame] at hbegin
  exact hbegin.goesOn (s'.goesOn_settle _)

/-- Whatever happens to a studio, the session stays in step with the mode. -/
theorem handle_leads {s : Studio} (h : s.game.IsCoupled)
    (hplays : s.game.plays ≤ Number.counterMax) (i : Input) :
    ∃ w, s.game.Leads w (s.handle i).game := by
  have hsame : ∀ s' : Studio, s'.game = s.game → ∃ w, s.game.Leads w s'.game := by
    intro s' hgame
    rw [hgame]
    exact ⟨_, (Game.GoesOn.refl s.game).leads h hplays⟩
  cases i with
  | frame elapsed => exact ⟨_, frame_leads h hplays elapsed⟩
  | request r => exact ⟨_, Game.take_leads h hplays (.request r)⟩
  | load d => exact ⟨_, Game.take_leads h hplays (.load d)⟩
  | editWorld change => exact ⟨_, Game.take_leads h hplays (.edit change)⟩
  | putObject id o =>
    exact ⟨_, Game.take_leads h hplays (.edit fun w => { w with objects := w.objects.insert id o })⟩
  | moveCursor p =>
    refine hsame _ ?_
    simp only [handle, moveCursor]
    split <;> rfl
  | _ => exact hsame _ rfl

/-- Sessions follow the modes. From a new studio on, whatever is asked for, pressed, written or
edited between the frames, and however many requests one frame answers, the engine runs just while
the game is played; else there are no tasks, no message and no variables. Sessions are counted as
the playing mode is entered. A frame after which the game is not played has let no script run: the
world is what the scene and the keys have made of it. The same is true of the game alone when the
parts of frames come in any order and any number. -/
theorem sessions_follow_modes (limits : Script.Limits) (random : Random) (scene : Scene)
    (editor : Option Editor) (window : Window) (writable : Bool) (display : Option Display) :
    let engine : Script.Engine := ⟨limits, random, 0, .empty, none⟩
    (∀ inputs : List Input,
      let new := Studio.new scene engine editor window writable display
      let s := inputs.foldl handle new
      s.game.IsCoupled ∧ s.game.plays = min
        (playsBegun (·.game.mode) handle new inputs) Number.counterMax ∧
        ∀ elapsed, s.game.Leads s.worldWithoutScripts (s.frame elapsed).game) ∧
    ∀ (world : World) (parts : List Game.Part),
      let new := Game.new engine world
      let g := parts.foldl Game.take new
      g.IsCoupled ∧ g.plays = min (playsBegun Game.mode Game.take new parts) Number.counterMax ∧
        ∀ part, g.Leads (g.worldWithoutScripts part) (g.take part) := by
  intro engine
  have hnew : ∀ world, (Game.new engine world).IsCoupled := fun _ =>
    Game.isCoupled_of_running_iff ⟨fun hrunning => by contradiction, fun hmode => by contradiction⟩
  have hzero : 0 ≤ Number.counterMax := Nat.zero_le _
  refine ⟨fun inputs => ?_, fun world parts => ?_⟩
  · obtain ⟨hcoupled, hcount⟩ :=
      Game.coupled_foldl Studio.game handle (fun _ i h hplays => handle_leads h hplays i) inputs
        (s := Studio.new scene engine editor window writable display) (hnew _) hzero
    refine ⟨hcoupled, ?_, fun elapsed => frame_leads hcoupled ?_ elapsed⟩
    · rw [hcount]
      exact congrArg (min · _) (Nat.zero_add _)
    · rw [hcount]
      exact Nat.min_le_right _ _
  · obtain ⟨hcoupled, hcount⟩ := Game.coupled_foldl id Game.take
      (fun _ part h hplays => ⟨_, Game.take_leads h hplays part⟩) parts
        (s := Game.new engine world) (hnew _) hzero
    refine ⟨hcoupled, ?_, fun part => Game.take_leads hcoupled ?_ part⟩
    · exact hcount.trans (congrArg (min · _) (Nat.zero_add _))
    · exact hcount.le.trans (Nat.min_le_right _ _)

end Studio

end BlockStudio
