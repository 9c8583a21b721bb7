import BlockStudio.CommandLine
import BlockStudio.Proofs.Harmless
import BlockStudio.Proofs.Logs

/-!
Runs without a window. A run needs a frame to answer the request to play and enters the session at
the next one, and it counts the frames of its events. Main statement: the report of a run of `n + 1`
frames is that of a session which is begun and updated `n` times, as long as no script ends the
game.
-/
namespace BlockStudio

namespace EventBus

/-- What is told of the events by their kinds does not depend on their frames. -/
theorem kinds_eq_of_contents {b b' : EventBus} (h : b'.contents = b.contents) :
    b'.log.entries.map (·.content.kind) = b.log.entries.map (·.content.kind) := by
  have hentries : b'.log.entries.map (·.content) = b.log.entries.map (·.content) :=
    congrArg BoundedLog.entries h
  have hkinds := congrArg (List.map EventContent.kind) hentries
  rwa [List.map_map, List.map_map] at hkinds

theorem summary_eq_of_contents {b b' : EventBus} (h : b'.contents = b.contents) :
    b'.summary = b.summary := by
  rw [summary, summary, kinds_eq_of_contents h]

theorem count_eq_of_contents {b b' : EventBus} (h : b'.contents = b.contents) :
    b'.count = b.count := by
  funext kind
  rw [count_eq, count_eq, kinds_eq_of_contents h]

end EventBus

theorem Scene.ended_setUp (scene : Scene) (w : World) : (scene.setUp w).ended = false :=
  List.foldlRecOn scene.objects addObject
    (motive := fun w : World => w.ended = false) rfl fun _ h _ _ => h

namespace Script

/-- Two states are the same but for the frames of the reported events. -/
def State.SameEvents (s s' : State) : Prop :=
  ∃ bus : EventBus, s' = s.withLogs s.faults bus ∧ bus.contents = s.world.bus.contents

namespace State.SameEvents
variable {s s' : State}

theorem refl (s : State) : s.SameEvents s := ⟨s.world.bus, rfl, rfl⟩

/-- Events are reported and never read, so their frames decide nothing. -/
theorem harmless : Harmless State.SameEvents where
  score_eq := by
    rintro s _ ⟨bus, rfl, -⟩
    rfl
  touches_eq := by
    rintro s _ ⟨bus, rfl, -⟩
    rfl
  keys_eq := by
    rintro s _ ⟨bus, rfl, -⟩
    rfl
  addTimer t := by
    rintro ⟨bus, rfl, hbus⟩
    exact ⟨bus, rfl, hbus⟩
  ageOverlay dt := by
    rintro ⟨bus, rfl, hbus⟩
    exact ⟨bus, rfl, hbus⟩
  mirrorScore := by
    rintro s _ ⟨bus, rfl, hbus⟩
    exact ⟨bus, rfl, hbus⟩
  next p m a s' := by
    rintro ⟨bus, rfl, hbus⟩
    obtain ⟨hnext, -⟩ := a.next_withLogs_emitted (p := p) (m := m)
    obtain ⟨hbefore, hfaults⟩ := a.logs_next (p := p) (m := m)
    refine ⟨(a.next p m).state.withLogs (a.next p m).state.faults ((a.emitted p m).foldl .emit bus),
      ?_, _, rfl, ?_⟩
    · rw [hfaults]
      exact hnext a.state.faults bus
    · rw [hbefore, EventBus.contents_foldl_emit, EventBus.contents_foldl_emit, hbus]

end State.SameEvents

/-- Engines whose states are the same but for the frames of events are the same, and their worlds
but for these. -/
theorem Engine.Follows.eq_of_sameEvents {r r' : Engine × World}
    (h : Follows State.SameEvents r r') :
    r'.1 = r.1 ∧ ∃ bus : EventBus, r'.2 = { r.2 with bus } ∧ bus.contents = r.2.bus.contents := by
  obtain ⟨⟨limits, random, lastTaskId, faults, _⟩, w⟩ := r
  obtain ⟨⟨limits', random', lastTaskId', faults', _⟩, w'⟩ := r'
  obtain ⟨hlimits, ⟨s, kept, hs, hs'⟩, bus, hstate, hbus⟩ := h
  obtain rfl : limits' = limits := hlimits
  obtain rfl := hs
  obtain rfl := hs'
  have hfields :
      (⟨kept.variableValues, kept.overlay, kept.pending, lastTaskId', faults', random',
      w'⟩ : State) = ⟨s.variableValues, s.overlay, s.pending, lastTaskId, faults, random,
      { w with bus }⟩ := hstate
  obtain ⟨hvalues, hoverlay, hpending, rfl, rfl, rfl, rfl⟩ := State.mk.inj hfields
  refine ⟨?_, bus, rfl, hbus⟩
  rw [Session.withState, hvalues, hoverlay, hpending]

section
variable {p : Program} {m : Moment}

/-- Only one effect ends the game, and none takes the end back. -/
theorem ended_perform (origin : String) (e : Effect) (s : State) :
    (perform p m none origin e s).world.ended = true ↔ s.world.ended = true ∨ e = .endGame := by
  have hstore : ∀ name value, (s.store name value).world.ended = s.world.ended := by
    intro name value
    simp only [State.store]
    split <;> rfl
  have hwrite : ∀ name value, (write p m none origin name value s).world.ended = s.world.ended := by
    intro name value
    rw [← hstore name value]
    unfold write
    dsimp only
    split <;> rfl
  cases e with
  | setVariable name value => simp only [perform]; split <;> simp [hwrite]
  | changeVariable name delta => simp only [perform]; split <;> simp [hwrite]
  | destroy id => simp only [perform, World.destroyObject]; split <;> simp [World.emit]
  | setColor id color =>
    simp only [perform]
    split
    · split <;> simp [State.editObject, State.fault]
    · simp
  | endGame => simp [perform, State.emit, World.emit]
  | _ => simp [perform, State.editObject, State.setScore, State.emit, World.emit]

theorem Agenda.ended_next (a : Agenda) :
    (a.next p m).state.world.ended = true ↔
      a.state.world.ended = true ∨ a.effect? = some .endGame := by
  rcases a.next_changes p m with ⟨e, origin, he, -, hworld⟩ | ⟨hnone, -, hworld | ⟨label, hworld⟩⟩
  · rw [hworld, ended_perform, he, Option.some.injEq]
  · rw [hworld, hnone]
    simp
  · rw [hworld, hnone]
    simp [World.emit]

theorem Course.ended_iff {a c : Agenda} {as : List Agenda} (h : Course p m a as c) :
    c.state.world.ended = true ↔ a.state.world.ended = true ∨ ∃ b ∈ as,
    b.effect? = some .endGame := by
  induction h with
  | done _ => simp
  | @next a c as _ _ ih => rw [ih, Agenda.ended_next, List.exists_mem_cons_iff, or_assoc]

end

namespace Engine
variable {e : Engine} {d : Document} {w : World} {beats : List Beat} {records : List Record}

/-- The effect that ends the game is carried out in a play. -/
def EndsGame (records : List Record) : Prop :=
  ∃ r ∈ records, ∃ a ∈ r.agendas, a.effect? = some .endGame

/-- The game has ended just if a script has ended it. -/
theorem Recorded.ended_iff (h : e.Recorded d w beats records)
    (hbeats : ∀ b ∈ beats, ∀ w : World, (b.change w).ended = w.ended) :
    (e.play d w beats).2.ended = true ↔ w.ended = true ∨ EndsGame records := by
  induction h with
  | @start _ c h =>
    have hend : c.state.world.ended = true ↔ _ := h.ended_iff
    rw [state_of_course_begin h, world_ofBegin] at hend
    refine hend.trans (or_congr_right ?_)
    simp [EndsGame]
  | @update beats _ _ c s b _ hs h ih =>
    have hend : c.state.world.ended = true ↔ _ := h.ended_iff
    rw [state_of_course_beat hs h] at hend
    have hbefore : (Agenda.ofBeat (e.play d w beats) b s).state.world.ended =
        (e.play d w beats).2.ended :=
      hbeats b (by simp) _
    rw [hbefore, ih fun b' hb' => hbeats b' (List.mem_append_left _ hb'), or_assoc] at hend
    refine hend.trans (or_congr_right ?_)
    simp [EndsGame, or_and_right, exists_or]

/-- A game that has not ended after a frame had not ended before it. -/
theorem not_ended_of_concat {b : Beat} (hchange : ∀ w : World, (b.change w).ended = w.ended)
    (h : (e.play d w (beats ++ [b])).2.ended = false) : (e.play d w beats).2.ended = false := by
  obtain ⟨records, hrecords⟩ := e.exists_recorded d w (beats ++ [b])
  generalize hall : beats ++ [b] = all at h hrecords
  cases hrecords with
  | start _ => simp at hall
  | @update _ _ _ c s _ _ hs hcourse =>
    obtain ⟨rfl, hb⟩ := List.append_inj' hall rfl
    obtain rfl := List.singleton_inj.mp hb
    have hend : c.state.world.ended = true ↔ (b.change (e.play d w beats).2).ended = true ∨ _ :=
      hcourse.ended_iff
    rw [state_of_course_beat hs hcourse, hchange] at hend
    rw [← Bool.not_eq_true] at h ⊢
    exact fun hbefore => h (hend.mpr (.inl hbefore))

end Engine

end Script

namespace Run
open Script

/-- A frame of a session on its own. -/
def pulse : Beat := ⟨id, Clock.seconds frameLength⟩

/-- A frame of a session in a run, which counts the frames of its events. -/
def tick : Beat := ⟨fun w => { w with bus := w.bus.tick }, Clock.seconds frameLength⟩

theorem frames_succ (n : Nat) (r : Run) : r.frames (n + 1) = (r.frames n).frame := by
  induction n generalizing r with
  | zero => rfl
  | succ n ih => exact ih r.frame

/-- A run in its first session, which has the given engine and world. -/
def inSession (clock : Clock) (d : Document) (r : Engine × World) : Run :=
  ⟨clock, ⟨.playing, none, false, 1, [], r.1, r.2, some d⟩, some r.1⟩

theorem frameTime_of_running {clock : Clock} (h : clock.running = true) :
    clock.frameTime frameLength = frameLength := by
  rw [Clock.frameTime, h]
  rfl

theorem endFrame_of_going {g : Game} (hrequests : g.requests = [])
    (hended : g.world.ended = false) :
    g.endFrame = g := by
  obtain ⟨mode, nextMode, pending, plays, requests, engine, world, active⟩ := g
  subst hrequests
  have hended' : world.ended = false := hended
  simp only [Game.endFrame, Game.handleRequests, List.foldl_nil, Game.finish,
    hended', Bool.and_false, Bool.false_eq_true, if_false]

theorem frame_inSession {clock : Clock} (hclock : clock.running = true) (d : Document)
    {r : Engine × World} (hrunning : (Engine.beat r tick).1.isRunning = true)
    (hended : (Engine.beat r tick).2.ended = false) :
    (inSession clock d r).frame = inSession (clock.after frameLength) d (Engine.beat r tick) := by
  have htime : (inSession clock d r).clock.frameTime frameLength = frameLength :=
    frameTime_of_running hclock
  have hgame :
      ((inSession clock d r).game.beginFrame none none (Clock.seconds frameLength)).endFrame =
      (inSession clock d (Engine.beat r tick)).game := endFrame_of_going rfl hended
  rw [frame, htime, hgame]
  simp only [inSession, hrunning, if_true]

/-- The first frame of a run answers the request to play. The second one enters the session and is
its first. -/
theorem frames_two (e : Engine) (d : Document) {w : World} (hw : w.ended = false)
    (hrunning : (e.play d w [tick]).1.isRunning = true)
    (hended : (e.play d w [tick]).2.ended = false) :
    (start e w d).frames 2 = inSession ((Clock.start.after 0).after frameLength) d
      (e.play d w [tick]) := by
  let asked : Game := ⟨.editing, some .playing, false, 0, [], e, w, some d⟩
  have hfirst : (start e w d).frame =
      ⟨Clock.start.after 0, asked, if e.isRunning then some e else none⟩ := rfl
  have hworld : ({ w with ended := false } : World) = w := by rw [← hw]
  have hbegin : asked.beginFrame none none (Clock.seconds frameLength) =
      (inSession (Clock.start.after 0) d (e.play d w [tick])).game := by
    have hstart : asked.changeMode none none =
        (inSession (Clock.start.after 0) d (e.start d { w with ended := false })).game := rfl
    rw [Game.beginFrame, hstart, hworld]
    rfl
  have hgame : (asked.beginFrame none none (Clock.seconds frameLength)).endFrame =
      (inSession (Clock.start.after 0) d (e.play d w [tick])).game := by
    rw [hbegin]
    exact endFrame_of_going rfl hended
  rw [frames_succ, frames_succ, frames, hfirst, frame, frameTime_of_running rfl, hgame]
  simp only [inSession, hrunning, if_true]

/-- After `n + 1` frames a run has come to the `n`-th frame of its session. -/
theorem frames_eq_play (e : Engine) (d : Document) {w : World} (hw : w.ended = false) (n : Nat)
    (hended : (e.play d w (List.replicate (n + 1) tick)).2.ended = false) :
    ∃ clock : Clock, clock.running = true ∧
      (start e w d).frames (n + 2) =
        inSession clock d (e.play d w (List.replicate (n + 1) tick)) := by
  have hrunning : ∀ beats, (e.play d w beats).1.isRunning = true := by
    intro beats
    obtain ⟨s, hs, -⟩ := e.exists_session_play d w beats
    simp only [Engine.isRunning, hs, Option.isSome_some]
  induction n with
  | zero => exact ⟨_, rfl, frames_two e d hw (hrunning _) hended⟩
  | succ n ih =>
    rw [List.replicate_succ'] at hended ⊢
    obtain ⟨clock, hclock, hframes⟩ := ih (Engine.not_ended_of_concat (fun _ => rfl) hended)
    refine ⟨clock.after frameLength, rfl, ?_⟩
    have hlast := hrunning (List.replicate (n + 1) tick ++ [tick])
    rw [Engine.play_concat] at hended hlast ⊢
    rw [frames_succ, hframes, frame_inSession hclock d hlast hended]

/-- The report of a session after `n` frames in which it was never stopped, from its faults and
from the game it runs in. -/
def reportOf (n : Nat) (s : Session) (faults : FaultLog) (w : World) : Json :=
  .object
    [("events", .object (w.bus.kinds.map fun kind => (kind, .number (.nat (w.bus.count kind))))),
      ("runtime", .object
        ([("faults", .array (faults.entries.map fun f =>
              .object [("action", .text f.action.name), ("frame", .number (.nat f.frame)),
                ("message", .text f.message), ("origin", .text f.origin)])),
            ("frame", .number (.nat n))]
          ++ (s.overlay.map fun o => ("overlay", Json.text o.text)).toList
          ++ [("pending_tasks", .number (.nat s.pending.length)), ("running", .bool true),
            ("seconds", .number (.double s.moment.seconds)),
            ("variables", .array (s.variableValues.entries.map fun v =>
              .array [.text v.1, .number (.double v.2)]))])),
      ("score", .number (.double w.score)),
      ("session", .object [("mode", .text "Playing"), ("plays", .number (.nat 1))])]

theorem report_inSession (clock : Clock) (d : Document) {r : Engine × World} {s : Session}
    (hs : r.1.session = some s) :
    (inSession clock d r).report = reportOf s.moment.frame s r.1.faults r.2 := by
  simp only [report, inSession, Option.getD_some, Engine.toJson, Engine.moment, Engine.overlay,
    Engine.pendingCount, Engine.isRunning, Engine.variableValues, hs, Option.map_some,
    Option.bind_some, Option.isSome_some, EventBus.summary_eq, List.map_map]
  rfl

/-- A run counts the frames of its events, and is the plain session but for them. -/
theorem play_ticks (e : Engine) (d : Document) (w : World) (n : Nat) :
    (e.play d w (List.replicate n tick)).1 = (e.play d w (List.replicate n pulse)).1 ∧
      ∃ bus : EventBus, (e.play d w (List.replicate n tick)).2 =
        { (e.play d w (List.replicate n pulse)).2 with bus } ∧
        bus.contents = (e.play d w (List.replicate n pulse)).2.bus.contents := by
  have hagrees : pulse.Agrees State.SameEvents tick := by
    refine ⟨rfl, ?_⟩
    rintro s _ ⟨bus, rfl, hbus⟩
    exact ⟨bus.tick, rfl, hbus⟩
  have hbeats : List.Forall₂ (Beat.Agrees State.SameEvents) (List.replicate n pulse)
      (List.replicate n tick) := by
    induction n with
    | zero => exact .nil
    | succ n ih => exact .cons hagrees ih
  exact (State.SameEvents.harmless.play rfl rfl (.refl _) hbeats).eq_of_sameEvents

/-- The report tells nothing of the frames of events. -/
theorem reportOf_withBus (n : Nat) (s : Session) (faults : FaultLog) (w : World) {bus : EventBus}
    (h : bus.contents = w.bus.contents) :
    reportOf n s faults { w with bus } = reportOf n s faults w := by
  have hkinds : bus.kinds = w.bus.kinds := by
    rw [EventBus.kinds, EventBus.kinds, EventBus.kinds_eq_of_contents h]
  rw [reportOf, reportOf, hkinds, EventBus.count_eq_of_contents h]

/-- After `n + 1` frames a run is in the `n`-th frame of a plain session. -/
theorem frames_refine_play (e : Engine) (d : Document) {w : World} (hw : w.ended = false)
    {n : Nat} (hn : 1 ≤ n) (hended : (e.play d w (List.replicate n pulse)).2.ended = false) :
    ∃ (clock : Clock) (bus : EventBus),
      (start e w d).frames (n + 1) = inSession clock d ((e.play d w (List.replicate n pulse)).1,
        { (e.play d w (List.replicate n pulse)).2 with bus }) ∧
      bus.contents = (e.play d w (List.replicate n pulse)).2.bus.contents := by
  obtain ⟨n, rfl⟩ : ∃ k, n = k + 1 := ⟨n - 1, by omega⟩
  obtain ⟨hengine, bus, hworld, hbus⟩ := play_ticks e d w (n + 1)
  obtain ⟨clock, -, hframes⟩ := frames_eq_play e d hw n (by rw [hworld]; exact hended)
  refine ⟨clock, bus, ?_, hbus⟩
  rw [hframes, ← hengine, ← hworld]

/-- A run without a window is a plain session. Unless a script ends the game, a run of `n + 1`
frames is playing its first session, and its report, which is also what the command line prints, is
that of the session which begins with the document in the scene and is updated `n` times. -/
theorem run_refines_play (limits : Limits) (seed : Nat) (scene : Scene) (d : Document) {n : Nat}
    (hn : 1 ≤ n) (hcount : n ≤ Number.counterMax) {records : List Record}
    (hrecords : (Engine.ofSeed limits seed).Recorded d (scene.setUp .empty)
      (List.replicate n pulse) records)
    (hend : ¬ Engine.EndsGame records) :
    let played := (Engine.ofSeed limits seed).play d (scene.setUp .empty) (List.replicate n pulse)
    let r := (start (Engine.ofSeed limits seed) (scene.setUp .empty) d).frames (n + 1)
    r.game.mode = .playing ∧ r.game.plays = 1 ∧ r.game.engine = played.1 ∧
      r.lastRunning = some played.1 ∧ played.1.moment.frame = n ∧
      r.game.world = { played.2 with bus := r.game.world.bus } ∧
      r.game.world.bus.summary = played.2.bus.summary ∧
      ∃ s : Session, played.1.session = some s ∧
        r.report = reportOf n s played.1.faults played.2 ∧
        ∀ (around : CommandLine.Surroundings) (entropy : Nat) (args : List String) (path : String),
          .ofEnvironment around.environment = limits →
          (CommandLine.loadConfig around).1.scene = scene →
          CommandLine.loadScript around
            (CommandLine.scriptPath args (CommandLine.loadConfig around).1) = .ok (path, d) →
          ((CommandLine.argument? "--frames" args).bind Number.readCounter?).getD
            CommandLine.standardFrames = n →
          ((CommandLine.argument? "--seed" args).bind Number.readCounter?).getD entropy = seed →
          (CommandLine.run around entropy args).code = 0 ∧
            (CommandLine.run around entropy args).report =
              some (reportOf n s played.1.faults played.2) := by
  intro played r
  have hended : played.2.ended = false := by
    rw [← Bool.not_eq_true, hrecords.ended_iff (by simp [pulse]), scene.ended_setUp]
    simpa using hend
  have hmoment : played.1.moment.frame = n := by
    obtain ⟨frames, hframes⟩ :=
      (Engine.ofSeed limits seed).exists_traced d (scene.setUp .empty) (List.replicate n pulse)
    rw [hframes.moment_eq.2.1, List.length_replicate, Nat.min_eq_left hcount]
  obtain ⟨s, hs, -⟩ :=
    (Engine.ofSeed limits seed).exists_session_play d (scene.setUp .empty) (List.replicate n pulse)
  obtain ⟨clock, bus, hr, hbus⟩ :=
    frames_refine_play (.ofSeed limits seed) d (scene.ended_setUp .empty) hn hended
  have hframe : s.moment.frame = n := by
    rw [← hmoment, Engine.moment, show played.1.session = some s from hs]
    rfl
  have hreport : r.report = reportOf n s played.1.faults played.2 := by
    rw [← reportOf_withBus n s played.1.faults played.2 hbus, ← hframe]
    exact (congrArg report hr).trans (report_inSession clock d hs)
  have hsummary : r.game.world.bus.summary = played.2.bus.summary := by
    rw [← EventBus.summary_eq_of_contents hbus]
    exact congrArg (·.game.world.bus.summary) hr
  have hworld : r.game.world = { played.2 with bus } := congrArg (·.game.world) hr
  refine ⟨congrArg (·.game.mode) hr, congrArg (·.game.plays) hr, congrArg (·.game.engine) hr,
    congrArg (·.lastRunning) hr, hmoment, by rw [hworld], hsummary, s, hs, hreport, ?_⟩
  intro around entropy args path hlimits hscene hload hframes hseed
  rw [← hreport]
  simp only [CommandLine.run, hload, hframes, hseed, hlimits, hscene]
  exact ⟨trivial, rfl⟩

/-- A document whose script scores when it starts and shows a message. -/
def scoringDocument : Document :=
  ⟨[⟨1, 0, 0, [⟨(), "on_start", .empty, none, none⟩,
      ⟨(), "add_score", .ofList [("amount", "3")], none, none⟩,
      ⟨(), "show_message", .ofList [("text", "Go")], none, none⟩]⟩], ["x"]⟩

theorem run_refines_play_scoringDocument :
    let e : Engine := .ofSeed .standard 7
    let played := e.play scoringDocument (Scene.empty.setUp .empty) [pulse, pulse]
    let r := (start e (Scene.empty.setUp .empty) scoringDocument).frames 3
    r.game.mode = .playing ∧ r.game.plays = 1 ∧ played.1.moment.frame = 2 ∧
      played.2.bus.summary = [("message", 1)] ∧
      ∃ s : Session, played.1.session = some s ∧
        s.pending.length = 0 ∧ s.variableValues.keys = ["score", "x"] ∧
        played.1.faults.entries = [] ∧ r.report = reportOf 2 s played.1.faults played.2 := by
  intro e played r
  obtain ⟨records, hrecords⟩ :=
    e.exists_recorded scoringDocument (Scene.empty.setUp .empty) (List.replicate 2 pulse)
  have hend : ¬ Engine.EndsGame records := by
    intro hends
    have hended : played.2.ended = true :=
      (hrecords.ended_iff (by simp [pulse])).mpr (.inr hends)
    have hgoing : played.2.ended = false := by decide +kernel
    simp [hgoing] at hended
  obtain ⟨hmode, hplays, -, -, hframe, -, -, s, hs, hreport, -⟩ :=
    run_refines_play .standard 7 .empty scoringDocument (by decide) (by decide) hrecords hend
  have hpending : (played.1.session.map (·.pending.length)) = some 0 := by decide +kernel
  have hkeys : (played.1.session.map (·.variableValues.keys)) = some ["score", "x"] := by
    decide +kernel
  rw [show played.1.session = some s from hs, Option.map_some, Option.some.injEq] at hpending hkeys
  have hsummary : played.2.bus.summary = [("message", 1)] := by decide +kernel
  have hfaults : played.1.faults.entries = [] := by decide +kernel
  exact ⟨hmode, hplays, hframe, hsummary, s, hs, hpending, hkeys, hfaults, hreport⟩

end Run

end BlockStudio
