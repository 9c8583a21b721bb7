import BlockStudio.Proofs.Modes
import Mathlib.Data.List.Induction

/-!
Stopping. A request to stop may come after others in the same frame, and the game may end in that
frame; what was asked for earlier is then overwritten, all but a restart. Main statement: a stop
that comes last keeps the game from being played just if no restart is pending, and one is pending
from when a played game is restarted until the game is edited.
-/
namespace BlockStudio

/-- The mode ahead after requests are answered in the mode `m`, when `ahead` was the mode ahead
before. -/
def Request.answer (m ahead : Mode) (requests : List Request) : Mode :=
  requests.foldl (fun ahead r => (r.target? m).getD ahead) ahead

theorem Request.answer_of_getLast?_stop {m ahead : Mode} {requests : List Request}
    (hm : m ≠ .editing) (hlast : requests.getLast? = some .stop) :
    answer m ahead requests = .editing := by
  obtain ⟨earlier, rfl⟩ := List.getLast?_eq_some_iff.mp hlast
  simp only [answer, List.foldl_append, List.foldl_cons, List.foldl_nil]
  cases m with
  | editing => contradiction
  | playing | gameOver => rfl

theorem Request.answer_ne_playing {m ahead : Mode} {requests : List Request}
    (hstop : ∀ r ∈ requests, r = .stop) (hahead : ahead ≠ .playing) :
    answer m ahead requests ≠ .playing := by
  refine List.foldlRecOn requests _ (motive := fun ahead' => ahead' ≠ Mode.playing) hahead
    fun ahead' hahead' r hr => ?_
  rw [hstop r hr]
  cases m with
  | editing => exact hahead'
  | playing | gameOver => exact Mode.noConfusion

namespace Game

/-- The mode that the next frame begins with. -/
def ahead (g : Game) : Mode := g.nextMode.getD g.mode

/-- Whether the next frame edits the game only to play it again. -/
def resumes (g : Game) : Bool := g.restartPending && g.mode != .editing && g.ahead == .editing

/-- A game stays at the point of the session flow where it was. -/
structure Holds (g g' : Game) : Prop where
  mode_eq : g'.mode = g.mode
  nextMode_eq : g'.nextMode = g.nextMode
  restartPending_eq : g'.restartPending = g.restartPending

namespace Holds
variable {g g' g'' : Game}

theorem refl (g : Game) : g.Holds g := ⟨rfl, rfl, rfl⟩

theorem trans (h : g.Holds g') (h' : g'.Holds g'') : g.Holds g'' :=
  ⟨h'.1.trans h.1, h'.2.trans h.2, h'.3.trans h.3⟩

theorem ahead_eq (h : g.Holds g') : g'.ahead = g.ahead := by
  rw [ahead, ahead, h.mode_eq, h.nextMode_eq]

theorem resumes_eq (h : g.Holds g') : g'.resumes = g.resumes := by
  rw [resumes, resumes, h.restartPending_eq, h.mode_eq, h.ahead_eq]

end Holds

/-- A frame begins in the mode ahead. A pending restart is taken up as editing is entered. -/
theorem beginFrame_eq (g : Game) (scene : Option Scene) (canvas : Option Document)
    (seconds : Float) :
    (g.beginFrame scene canvas seconds).mode = g.ahead ∧
      (g.beginFrame scene canvas seconds).ahead = (if g.resumes then .playing else g.ahead) ∧
      (g.beginFrame scene canvas seconds).restartPending = (g.restartPending && !g.resumes) ∧
      (g.beginFrame scene canvas seconds).requests = g.requests := by
  obtain ⟨mode, nextMode, pending, plays, requests, engine, world, active⟩ := g
  cases nextMode with
  | none => cases mode <;> cases pending <;> exact ⟨rfl, rfl, rfl, rfl⟩
  | some m => cases mode <;> cases m <;> cases pending <;> exact ⟨rfl, rfl, rfl, rfl⟩

/-- Requests set the mode ahead one after another. A restart of a played game stays pending,
whatever comes later. -/
theorem handle_eq (g : Game) (r : Request) :
    (g.handle r).mode = g.mode ∧ (g.handle r).ahead = (r.target? g.mode).getD g.ahead ∧
      (g.handle r).restartPending =
        (g.restartPending || (g.mode == .playing && .restart == r)) := by
  obtain ⟨mode, nextMode, pending, plays, requests, engine, world, active⟩ := g
  cases r <;> cases mode <;> cases pending <;> exact ⟨rfl, rfl, rfl⟩

theorem foldl_handle_eq (requests : List Request) (g : Game) :
    (requests.foldl handle g).mode = g.mode ∧
      (requests.foldl handle g).ahead = Request.answer g.mode g.ahead requests ∧
      (requests.foldl handle g).restartPending =
        (g.restartPending || (g.mode == .playing && requests.contains .restart)) := by
  induction requests generalizing g with
  | nil => simp [Request.answer]
  | cons r rs ih =>
    obtain ⟨hmode, hahead, hpending⟩ := g.handle_eq r
    obtain ⟨hmode', hahead', hpending'⟩ := ih (g.handle r)
    refine ⟨hmode'.trans hmode, ?_, ?_⟩
    · rw [List.foldl_cons, hahead', hmode, hahead]
      rfl
    · rw [List.foldl_cons, hpending', hmode, hpending, List.contains_cons, Bool.or_assoc,
        ← Bool.and_or_distrib_left]

theorem handleRequests_eq (g : Game) :
    g.handleRequests.mode = g.mode ∧
    g.handleRequests.ahead = Request.answer g.mode g.ahead g.requests ∧
      g.handleRequests.restartPending =
        (g.restartPending || (g.mode == .playing && g.requests.contains .restart)) :=
  foldl_handle_eq g.requests { g with requests := [] }

theorem requests_handleRequests (g : Game) : g.handleRequests.requests = [] :=
  List.foldlRecOn g.requests handle
    (motive := fun g' => g'.requests = []) (b := { g with requests := [] }) rfl fun g' hg' r _ => by
      unfold handle
      split <;> exact hg'

/-- At the end of a frame the game may be over, if it is played. -/
theorem finish_eq (g : Game) :
    g.finish.mode = g.mode ∧ g.finish.restartPending = g.restartPending ∧
    g.finish.requests = g.requests ∧
      (g.finish.ahead = g.ahead ∨ g.mode = .playing ∧ g.finish.ahead = .gameOver) := by
  unfold finish
  split
  · rename_i hover
    simp only [Bool.and_eq_true, beq_iff_eq] at hover
    exact ⟨rfl, rfl, rfl, .inr ⟨hover.1, rfl⟩⟩
  · exact ⟨rfl, rfl, rfl, .inl rfl⟩

end Game

namespace Studio

/-- A part of a frame that neither asks for a mode nor answers what was asked. -/
structure Holds (s s' : Studio) : Prop where
  game : s.game.Holds s'.game
  requests_eq : s'.game.requests = s.game.requests
  keys_eq : s'.keys = s.keys
  changes_eq : s'.changes = s.changes

namespace Holds
variable {s s' s'' : Studio}

theorem refl (s : Studio) : s.Holds s := ⟨.refl _, rfl, rfl, rfl⟩

theorem trans (h : s.Holds s') (h' : s'.Holds s'') : s.Holds s'' :=
  ⟨h.1.trans h'.1, h'.2.trans h.2, h'.3.trans h.3, h'.4.trans h.4⟩

end Holds

theorem holds_prepare (s : Studio) : s.Holds s.prepare := by
  unfold prepare
  split
  · exact .refl s
  · exact ⟨⟨rfl, rfl, rfl⟩, rfl, rfl, rfl⟩

theorem holds_syncObjects (s : Studio) : s.Holds s.syncObjects := by
  unfold syncObjects
  split
  · exact .refl s
  · split <;> exact ⟨⟨rfl, rfl, rfl⟩, rfl, rfl, rfl⟩

theorem holds_drivePointer (s : Studio) : s.Holds s.drivePointer := by
  unfold drivePointer
  split
  · split
    · split <;> exact ⟨⟨rfl, rfl, rfl⟩, rfl, rfl, rfl⟩
    · exact .refl s
  · exact .refl s

theorem holds_save (s : Studio) : s.Holds s.save := by
  unfold save
  split
  · exact .refl s
  · dsimp only
    split <;> exact ⟨⟨rfl, rfl, rfl⟩, rfl, rfl, rfl⟩

theorem holds_draw (s : Studio) : s.Holds s.draw := ⟨⟨rfl, rfl, rfl⟩, rfl, rfl, rfl⟩

theorem holds_movePlayer (s : Studio) (seconds : Float32) : s.Holds (s.movePlayer seconds) := by
  unfold movePlayer
  split <;> exact ⟨⟨rfl, rfl, rfl⟩, rfl, rfl, rfl⟩

/-- A text of the file asks for a restart at most. -/
theorem holds_takeChanges (s : Studio) : s.game.Holds s.takeChanges.game := by
  unfold takeChanges reload
  dsimp only
  repeat' split
  all_goals exact ⟨rfl, rfl, rfl⟩

theorem takeChanges_of_nil {s : Studio} (h : s.changes = []) : s.takeChanges = s := by
  simp only [takeChanges, h, List.take_nil, List.getLast?_nil]

/-- The requests that the next frame answers. The play key counts as the last of them. -/
def asked (s : Studio) : List Request :=
  s.game.requests ++ if s.keys.wentDown .f5 then [playKeyRequest s.game.ahead] else []

/-- The studio in a frame, when the mode has changed and the session has advanced. -/
def begun (s : Studio) (elapsed : Nat) : Studio :=
  let s := s.prepare
  let time := s.clock.frameTime elapsed
  let s : Studio :=
    { s with wheel := s.wheel.turn.noteBeat (s.clock.beats time), clock := s.clock.after time }
  s.advance (Clock.seconds time)

theorem frame_eq (s : Studio) (elapsed : Nat) :
    let settled :=
      (s.begun elapsed).settle (Clock.secondsSingle (s.prepare.clock.frameTime elapsed))
    s.frame elapsed = { settled with keys := settled.keys.settle, mouse := settled.mouse.settle } :=
  rfl

theorem begun_eq (s : Studio) (elapsed : Nat) :
    (s.begun elapsed).game.mode = s.game.ahead ∧
      (s.begun elapsed).game.ahead = (if s.game.resumes then .playing else s.game.ahead) ∧
      (s.begun elapsed).game.restartPending = (s.game.restartPending && !s.game.resumes) ∧
      (s.begun elapsed).game.requests = s.game.requests ∧ (s.begun elapsed).keys = s.keys ∧
      (s.begun elapsed).changes = s.changes := by
  obtain ⟨hgame, hrequests, hkeys, hchanges⟩ := s.holds_prepare
  rw [← hgame.ahead_eq, ← hgame.resumes_eq, ← hgame.restartPending_eq, ← hrequests,
    ← hkeys, ← hchanges]
  obtain ⟨hmode, hahead, hpending, hasked⟩ := Game.beginFrame_eq
    { s.prepare.game with world := { s.prepare.game.world with keys := s.prepare.scriptKeys } }
      (some s.prepare.scene) (s.prepare.editor.map (·.toDocument))
      (Clock.seconds (s.prepare.clock.frameTime elapsed))
  exact ⟨hmode, hahead, hpending, hasked, rfl, rfl⟩

/-- What the rest of a frame makes of the requests, the play key among them. -/
theorem settle_eq (s : Studio) (seconds : Float32) :
    let asked := s.game.requests ++ if s.keys.wentDown .f5 then [playKeyRequest s.game.mode] else []
    let answered := Request.answer s.game.mode s.game.ahead asked
    (s.settle seconds).game.mode = s.game.mode ∧
      ((s.settle seconds).game.ahead = answered ∨
        s.game.mode = .playing ∧ (s.settle seconds).game.ahead = .gameOver) ∧
      (s.settle seconds).game.restartPending =
        (s.game.restartPending || (s.game.mode == .playing && asked.contains .restart)) ∧
      (s.changes = [] → (s.settle seconds).game.requests = [] ∧
        (s.settle seconds).changes = []) := by
  intro asked answered
  let pointed := s.syncObjects.drivePointer
  let keyed := pointed.answerKeys
  let ended : Studio := { keyed with game := keyed.game.endFrame }
  let drawn := ended.save.draw.movePlayer seconds
  have hpointed : s.Holds pointed := s.holds_syncObjects.trans s.syncObjects.holds_drivePointer
  have hkeyed : pointed.game.Holds keyed.game ∧ keyed.game.requests = asked ∧
      keyed.changes = pointed.changes := by
    simp only [keyed, answerKeys, asked, ← hpointed.requests_eq, ← hpointed.keys_eq,
      ← hpointed.game.mode_eq]
    split
    · exact ⟨⟨rfl, rfl, rfl⟩, rfl, rfl⟩
    · exact ⟨.refl _, (List.append_nil _).symm, rfl⟩
  have hdrawn : ended.Holds drawn :=
    (ended.holds_save.trans ended.save.holds_draw).trans (ended.save.draw.holds_movePlayer seconds)
  have hlast : ended.game.Holds (s.settle seconds).game := hdrawn.game.trans drawn.holds_takeChanges
  obtain ⟨hmode, hahead, hpending⟩ := keyed.game.handleRequests_eq
  obtain ⟨hmode', hpending', hrequests', hahead'⟩ := keyed.game.handleRequests.finish_eq
  have hsame : s.game.Holds keyed.game := hpointed.game.trans hkeyed.1
  rw [hsame.mode_eq, hsame.ahead_eq, hkeyed.2.1] at hahead
  rw [hsame.mode_eq, hsame.restartPending_eq, hkeyed.2.1] at hpending
  rw [hsame.mode_eq] at hmode
  refine ⟨?_, ?_, ?_, fun hnone => ?_⟩
  · rw [hlast.mode_eq]
    exact hmode'.trans hmode
  · rw [hlast.ahead_eq]
    exact hahead'.imp (·.trans hahead) (.imp_left hmode.symm.trans)
  · rw [hlast.restartPending_eq]
    exact hpending'.trans hpending
  · have hchanges : drawn.changes = [] := by
      rw [hdrawn.changes_eq, ← hnone, ← hpointed.changes_eq]
      exact hkeyed.2.2
    have hsettle : s.settle seconds = drawn := takeChanges_of_nil hchanges
    rw [hsettle, hdrawn.requests_eq]
    exact ⟨hrequests'.trans keyed.game.requests_handleRequests, hchanges⟩

/-- How a frame moves the session flow on: it enters the mode ahead and answers in it what was
asked. -/
theorem frame_flow (s : Studio) (elapsed : Nat) :
    let answered :=
      Request.answer s.game.ahead (if s.game.resumes then .playing else s.game.ahead) s.asked
    (s.frame elapsed).game.mode = s.game.ahead ∧
      ((s.frame elapsed).game.ahead = answered ∨
        s.game.ahead = .playing ∧ (s.frame elapsed).game.ahead = .gameOver) ∧
      (s.frame elapsed).game.restartPending =
        ((s.game.restartPending && !s.game.resumes) ||
          (s.game.ahead == .playing && s.asked.contains .restart)) ∧
      (s.frame elapsed).keys.wentDown .f5 = false ∧
      (s.changes = [] → (s.frame elapsed).game.requests = [] ∧ (s.frame elapsed).changes = []) := by
  obtain ⟨hmode, hahead, hpending, hrequests, hkeys, hchanges⟩ := s.begun_eq elapsed
  obtain ⟨hmode', hahead', hpending', hquiet⟩ :=
    (s.begun elapsed).settle_eq (Clock.secondsSingle (s.prepare.clock.frameTime elapsed))
  rw [hmode, hahead, hrequests, hkeys] at hahead'
  rw [hmode, hpending, hrequests, hkeys] at hpending'
  rw [hmode] at hmode'
  rw [hchanges] at hquiet
  intro answered
  rw [frame_eq]
  generalize (s.begun elapsed).settle _ = settled at *
  exact ⟨hmode', hahead', hpending', rfl, hquiet⟩

theorem handle_frame (s : Studio) (elapsed : Nat) : s.handle (.frame elapsed) = s.frame elapsed :=
  rfl

/-- Other inputs than frames leave the session flow where it is. -/
theorem holds_handle (s : Studio) {i : Input} (hi : ∀ elapsed, i ≠ .frame elapsed) :
    s.game.Holds (s.handle i).game := by
  cases i with
  | frame elapsed => exact absurd rfl (hi elapsed)
  | moveCursor p =>
    simp only [handle, moveCursor]
    split <;> exact ⟨rfl, rfl, rfl⟩
  | _ => exact ⟨rfl, rfl, rfl⟩

/-- Inputs that neither ask to play or to restart nor bring another script. -/
def Input.IsCalm : Input → Prop
  | .request r => r = .stop
  | .changeFile _ => False
  | .pressKey k => k ≠ .f5
  | _ => True

/-- Nothing waits to be played. -/
structure Rests (s : Studio) : Prop where
  notPending : s.game.restartPending = false
  ahead_ne : s.game.ahead ≠ .playing
  requests : ∀ r ∈ s.game.requests, r = .stop
  keys : s.keys.wentDown .f5 = false
  changes : s.changes = []

theorem Rests.asked {s : Studio} (h : s.Rests) : s.asked = s.game.requests := by
  rw [Studio.asked, h.keys]
  exact List.append_nil _

theorem Rests.frame {s : Studio} (h : s.Rests) (elapsed : Nat) : (s.frame elapsed).Rests := by
  obtain ⟨-, hahead, hpending, hkeys, hquiet⟩ := s.frame_flow elapsed
  obtain ⟨hrequests, hchanges⟩ := hquiet h.changes
  have hresumes : s.game.resumes = false := by
    rw [Game.resumes, h.notPending, Bool.false_and, Bool.false_and]
  have hplaying : (s.game.ahead == .playing) = false := beq_false_of_ne h.ahead_ne
  rw [h.asked, hresumes] at hahead
  rw [h.notPending, hplaying, Bool.false_and, Bool.false_and, Bool.false_or] at hpending
  refine ⟨hpending, ?_, fun r hr => ?_, hkeys, hchanges⟩
  · rcases hahead with hanswered | ⟨hother, -⟩
    · rw [hanswered]
      exact Request.answer_ne_playing h.requests h.ahead_ne
    · exact absurd hother h.ahead_ne
  · rw [hrequests] at hr
    contradiction

theorem Rests.handle {s : Studio} (h : s.Rests) {i : Input} (hi : i.IsCalm) :
    (s.handle i).Rests := by
  obtain ⟨hpending, hahead, hrequests, hkeys, hchanges⟩ := h
  cases i with
  | frame elapsed => exact Rests.frame ⟨hpending, hahead, hrequests, hkeys, hchanges⟩ elapsed
  | request r =>
    refine ⟨hpending, hahead, fun r' hr' => ?_, hkeys, hchanges⟩
    rcases List.mem_append.mp hr' with hold | hnew
    · exact hrequests r' hold
    · exact (List.mem_singleton.mp hnew).trans hi
  | changeFile source => exact hi.elim
  | pressKey k =>
    refine ⟨hpending, hahead, hrequests, ?_, hchanges⟩
    simp only [Studio.handle, Buttons.press]
    split
    · exact hkeys
    · have hother : KeyCode.f5 ≠ k := Ne.symm hi
      rw [Buttons.wentDown, List.contains_cons, beq_false_of_ne hother, Bool.false_or]
      exact hkeys
  | releaseKey k =>
    refine ⟨hpending, hahead, hrequests, ?_, hchanges⟩
    simp only [Studio.handle, Buttons.release]
    split <;> exact hkeys
  | moveCursor p =>
    simp only [Studio.handle, Studio.moveCursor]
    split <;> exact ⟨hpending, hahead, hrequests, hkeys, hchanges⟩
  | _ => exact ⟨hpending, hahead, hrequests, hkeys, hchanges⟩

/-- Whatever calm inputs come, a studio that rests does not play. -/
theorem Rests.foldl {s : Studio} (h : s.Rests) {inputs : List Input}
    (hcalm : ∀ i ∈ inputs, i.IsCalm) :
    (inputs.foldl Studio.handle s).Rests :=
  List.foldlRecOn inputs Studio.handle h fun _ h' i hi => h'.handle (hcalm i hi)

/-- After a frame nothing is asked for, unless the file changes. -/
theorem asked_of_quiet {s : Studio} (hrequests : s.game.requests = [])
    (hkeys : s.keys.wentDown .f5 = false) :
    s.asked = [] := by
  rw [asked, hrequests, hkeys]
  rfl

/-- A pending restart is taken up two frames after a stop, when nothing else is asked for. -/
theorem plays_of_pending {s : Studio} (hpending : s.game.restartPending = true)
    (hmode : s.game.mode ≠ .editing) (hahead : s.game.ahead = .editing) (hasked : s.asked = []) :
    ((s.frame 0).frame 0).game.mode = .playing := by
  have hresumes : s.game.resumes = true := by
    rw [Game.resumes, hpending, hahead, Bool.true_and, bne_iff_ne.mpr hmode]
    rfl
  obtain ⟨-, hahead', -⟩ := s.frame_flow 0
  rw [((s.frame 0).frame_flow 0).1]
  rcases hahead' with hanswered | ⟨hother, -⟩
  · rw [hanswered, hasked, hresumes]
    rfl
  · rw [hahead] at hother
    contradiction

/-- A frame in which the game is over leaves a pending restart as it is. -/
theorem frame_of_over {s : Studio} (hahead : s.game.ahead = .gameOver) (hchanges : s.changes = []) :
    (s.frame 0).game.mode = .gameOver ∧ (s.frame 0).game.restartPending = s.game.restartPending ∧
      (s.frame 0).game.ahead = Request.answer .gameOver .gameOver s.asked ∧ (s.frame 0).asked = [] ∧
      (s.frame 0).changes = [] := by
  obtain ⟨hmode, hahead', hpending, hkeys, hquiet⟩ := s.frame_flow 0
  obtain ⟨hrequests, hchanges'⟩ := hquiet hchanges
  have hresumes : s.game.resumes = false := by
    rw [Game.resumes, hahead]
    exact Bool.and_false _
  rw [hahead] at hmode
  simp only [hahead, hresumes, reduceCtorEq, false_and, or_false] at hahead'
  have hplaying : (Mode.gameOver == Mode.playing) = false := rfl
  rw [hahead, hresumes, hplaying, Bool.not_false, Bool.and_true, Bool.false_and,
    Bool.or_false] at hpending
  exact ⟨hmode, hpending, hahead', asked_of_quiet hrequests hkeys, hchanges'⟩

/-- With a restart pending, a stop after the end of the game leads to editing and from there to a
new play. -/
theorem plays_of_stop {s : Studio} (hpending : s.game.restartPending = true)
    (hahead : s.game.ahead = .gameOver) (hasked : s.asked = []) (hchanges : s.changes = []) :
    ((((s.handle (.request .stop)).frame 0).frame 0).frame 0).game.mode = .playing := by
  have hstop : (s.handle (.request .stop)).asked = [.stop] := by
    change ((s.game.requests ++ [.stop]) ++ _ : List Request) = _
    obtain ⟨hnone, hkeys⟩ := List.append_eq_nil_iff.mp hasked
    rw [hnone]
    exact congrArg (Request.stop :: ·) hkeys
  have hahead' : (s.handle (.request .stop)).game.ahead = .gameOver := hahead
  obtain ⟨hmode, hpending', hediting, hasked', -⟩ := frame_of_over hahead' hchanges
  refine plays_of_pending (hpending'.trans hpending) ?_ (hediting.trans ?_) hasked'
  · rw [hmode]
    exact Mode.noConfusion
  · rw [hstop]
    rfl

/-- With a restart pending, a stop or the end of the game is only a way to play again. -/
theorem exists_calm_plays {s : Studio} (hpending : s.game.restartPending = true)
    (hmode : s.game.mode ≠ .editing) (hahead : s.game.ahead = .editing ∨ s.game.ahead = .gameOver)
    (hasked : s.asked = []) (hchanges : s.changes = []) :
    ∃ inputs : List Input, (∀ i ∈ inputs, i.IsCalm) ∧
      ((inputs.foldl handle s).frame 0).game.mode = .playing := by
  rcases hahead with hediting | hover
  · refine ⟨[.frame 0], by simp [Input.IsCalm], ?_⟩
    simp only [List.foldl_cons, List.foldl_nil, handle_frame]
    exact plays_of_pending hpending hmode hediting hasked
  · obtain ⟨-, hpending', hahead', hasked', hchanges'⟩ := frame_of_over hover hchanges
    rw [hasked] at hahead'
    refine ⟨[.frame 0, .request .stop, .frame 0, .frame 0], by simp [Input.IsCalm], ?_⟩
    simp only [List.foldl_cons, List.foldl_nil, handle_frame]
    exact plays_of_stop (hpending'.trans hpending) hahead' hasked' hchanges'

/-- After a frame whose last answer was a stop, the game stays unplayed just if no restart is
pending. -/
theorem never_plays_iff {s : Studio} {elapsed : Nat}
    (hmode : (s.frame elapsed).game.mode ≠ .editing) (hlast : s.asked.getLast? = some .stop)
    (hrequests : (s.frame elapsed).game.requests = []) (hchanges : (s.frame elapsed).changes = []) :
    (∀ inputs : List Input, (∀ i ∈ inputs, i.IsCalm) →
      ∀ elapsed', ((inputs.foldl handle (s.frame elapsed)).frame elapsed').game.mode ≠ .playing) ↔
      (s.frame elapsed).game.restartPending = false := by
  obtain ⟨hmode', hahead, -, hkeys, -⟩ := s.frame_flow elapsed
  have hanswered : (s.frame elapsed).game.ahead = .editing ∨
      (s.frame elapsed).game.ahead = .gameOver := by
    rw [Request.answer_of_getLast?_stop (hmode' ▸ hmode) hlast] at hahead
    exact hahead.imp_right And.right
  constructor
  · intro hnever
    by_contra hpending
    obtain ⟨inputs, hcalm, hplays⟩ :=
      exists_calm_plays (Bool.not_eq_false _ ▸ hpending) hmode hanswered
        (asked_of_quiet hrequests hkeys) hchanges
    exact hnever inputs hcalm 0 hplays
  · intro hpending inputs hcalm elapsed'
    have hrests : (s.frame elapsed).Rests := by
      refine ⟨hpending, ?_, fun r hr => ?_, hkeys, hchanges⟩
      · rcases hanswered with hediting | hover
        · exact hediting ▸ Mode.noConfusion
        · exact hover ▸ Mode.noConfusion
      · rw [hrequests] at hr
        contradiction
    rw [((inputs.foldl handle (s.frame elapsed)).frame_flow elapsed').1]
    exact (hrests.foldl hcalm).ahead_ne

/-- A played game was restarted and has not been edited since. -/
def OwesRestart (new : Studio) (inputs : List Input) : Prop :=
  ∃ earlier elapsed later, inputs = earlier ++ Input.frame elapsed :: later ∧
    (earlier.foldl handle new).game.ahead = .playing ∧ .restart ∈ (earlier.foldl handle new).asked ∧
    ∀ since, since <+: later →
      ((earlier ++ .frame elapsed :: since).foldl handle new).game.mode ≠ .editing

theorem owesRestart_append_singleton (new : Studio) (inputs : List Input) (i : Input) :
    new.OwesRestart (inputs ++ [i]) ↔
      (∃ elapsed, i = .frame elapsed ∧ (inputs.foldl handle new).game.ahead = .playing ∧
        .restart ∈ (inputs.foldl handle new).asked) ∨
      new.OwesRestart inputs ∧ ((inputs ++ [i]).foldl handle new).game.mode ≠ .editing := by
  constructor
  · rintro ⟨earlier, elapsed, later, hinputs, hahead, hrestart, hsince⟩
    rcases List.eq_nil_or_concat later with rfl | ⟨later, i', rfl⟩
    · obtain ⟨rfl, hi⟩ := List.append_inj' hinputs rfl
      exact .inl ⟨elapsed, List.singleton_inj.mp hi, hahead, hrestart⟩
    · rw [List.concat_eq_append, ← List.cons_append, ← List.append_assoc] at hinputs
      obtain ⟨rfl, hi⟩ := List.append_inj' hinputs rfl
      refine .inr ⟨⟨earlier, elapsed, later, rfl, hahead, hrestart, fun since hstarts => ?_⟩, ?_⟩
      · exact hsince since (hstarts.trans (List.prefix_concat _ _))
      · have hall := hsince _ (List.prefix_refl _)
        rwa [List.concat_eq_append, ← List.cons_append, ← List.append_assoc, ← hi] at hall
  · rintro (⟨elapsed, rfl, hahead, hrestart⟩ |
      ⟨⟨earlier, elapsed, later, rfl, hahead, hrestart, hsince⟩, hmode⟩)
    · refine ⟨inputs, elapsed, [], rfl, hahead, hrestart, fun since hstarts => ?_⟩
      rw [List.prefix_nil.mp hstarts, List.foldl_append, List.foldl_cons,
        List.foldl_nil, handle_frame, ((inputs.foldl handle new).frame_flow elapsed).1, hahead]
      exact Mode.noConfusion
    · refine ⟨earlier, elapsed, later ++ [i], by simp, hahead, hrestart, fun since hstarts => ?_⟩
      rcases List.prefix_concat_iff.mp hstarts with rfl | hstarts
      · simpa using hmode
      · exact hsince since hstarts

/-- A frame leaves a restart pending that it answers in a played game, and one that was pending
until editing. -/
theorem restartPending_frame {s : Studio}
    (h : s.game.restartPending = true → s.game.mode ≠ .editing) (elapsed : Nat) :
    (s.frame elapsed).game.restartPending = true ↔
      (s.game.ahead = .playing ∧ .restart ∈ s.asked) ∨
        s.game.restartPending = true ∧ (s.frame elapsed).game.mode ≠ .editing := by
  obtain ⟨hmode, -, hpending, -⟩ := s.frame_flow elapsed
  rw [hmode, hpending, Game.resumes]
  cases hbefore : s.game.restartPending with
  | false => simp
  | true => simp [h hbefore, or_comm]

/-- In a run of a studio a restart is pending just if one is owed, and then the game is not
edited. -/
theorem restartPending_iff {new : Studio} (hnew : new.game.restartPending = false)
    (inputs : List Input) :
    ((inputs.foldl handle new).game.restartPending = true →
      (inputs.foldl handle new).game.mode ≠ .editing) ∧
      ((inputs.foldl handle new).game.restartPending = true ↔ new.OwesRestart inputs) := by
  induction inputs using List.reverseRecOn with
  | nil =>
    rw [List.foldl_nil, hnew]
    refine ⟨fun h => by contradiction, fun h => by contradiction, ?_⟩
    rintro ⟨earlier, elapsed, later, hinputs, -⟩
    exact absurd hinputs.symm (by simp)
  | append_singleton inputs i ih =>
    obtain ⟨hmode, howes⟩ := ih
    rw [owesRestart_append_singleton, ← howes]
    simp only [List.foldl_append, List.foldl_cons, List.foldl_nil]
    by_cases hframe : ∃ elapsed, i = .frame elapsed
    · obtain ⟨elapsed, rfl⟩ := hframe
      simp only [handle_frame, Input.frame.injEq, exists_eq_left']
      refine ⟨fun hpending => ?_, restartPending_frame hmode elapsed⟩
      rcases (restartPending_frame hmode elapsed).mp hpending with ⟨hahead, -⟩ | ⟨-, hother⟩
      · rw [((inputs.foldl handle new).frame_flow elapsed).1, hahead]
        exact Mode.noConfusion
      · exact hother
    · have hholds := holds_handle (inputs.foldl handle new) fun elapsed h => hframe ⟨elapsed, h⟩
      rw [hholds.restartPending_eq, hholds.mode_eq]
      refine ⟨hmode, fun hpending => .inr ⟨hpending, hmode hpending⟩, ?_⟩
      rintro (⟨elapsed, hi, -⟩ | ⟨hpending, -⟩)
      · exact absurd ⟨elapsed, hi⟩ hframe
      · exact hpending

/-- A stop that comes last keeps the game from being played, whatever calm inputs and frames follow
and whether or not the game ends meanwhile, just if no restart is owed: none of a played game that
was answered before the stop without the game having been edited since. -/
theorem stop_wins_iff (limits : Script.Limits) (random : Random) (scene : Scene)
    (editor : Option Editor) (window : Window) (writable : Bool) (display : Option Display)
    (inputs : List Input) (elapsed : Nat) :
    let new := Studio.new scene ⟨limits, random, 0, .empty, none⟩ editor window writable display
    let s := inputs.foldl handle new
    (s.frame elapsed).game.mode ≠ .editing → s.asked.getLast? = some .stop →
    (s.frame elapsed).game.requests = [] → (s.frame elapsed).changes = [] →
    ((∀ calm : List Input, (∀ i ∈ calm, i.IsCalm) →
      ∀ elapsed', ((calm.foldl handle (s.frame elapsed)).frame elapsed').game.mode ≠ .playing) ↔
      ¬ new.OwesRestart (inputs ++ [.frame elapsed])) := by
  intro new s hmode hlast hrequests hchanges
  rw [never_plays_iff hmode hlast hrequests hchanges, ← (restartPending_iff rfl _).2,
    List.foldl_append, List.foldl_cons, List.foldl_nil, handle_frame, Bool.not_eq_true]

/-- A studio without a canvas, in which nothing has happened. -/
def blank : Studio := .new .empty ⟨.standard, .ofSeed 1, 0, .empty, none⟩ none .standard false none

/-- A stop alone ends the game for good. -/
theorem stop_wins_in_play :
    let s := [Input.request .play, .frame 0, .frame 0, .request .stop].foldl handle blank
    s.game.mode = .playing ∧ ∀ calm : List Input, (∀ i ∈ calm, i.IsCalm) →
      ∀ elapsed, ((calm.foldl handle (s.frame 0)).frame elapsed).game.mode ≠ .playing := by
  refine ⟨by decide +kernel,
    (stop_wins_iff .standard (.ofSeed 1) .empty none .standard false none _ 0 (by decide +kernel)
    (by decide +kernel) (by decide +kernel) (by decide +kernel)).mpr ?_⟩
  rw [← (restartPending_iff rfl _).2]
  decide +kernel

/-- A stop that comes after a restart in the same frame is forgotten: two frames later the game is
played again. -/
theorem stop_after_restart_loses :
    let s :=
      [Input.request .play, .frame 0, .frame 0, .request .restart,
        .request .stop].foldl handle blank
    (s.frame 0).game.mode = .playing ∧ s.asked.getLast? = some .stop ∧
    (s.frame 0).game.requests = [] ∧
      (s.frame 0).changes = [] ∧ (((s.frame 0).frame 0).frame 0).game.mode = .playing := by
  decide +kernel

end Studio

end BlockStudio
