import BlockStudio.Proofs.Courses
import Mathlib.Data.List.Forall2

/-!
Harmless differences. Two states may differ in something that decides nothing that scripts do. Main
statement: where a relation of states is kept by each step, which does else the same in both, plays
of documents with the same handlers go the same way and keep the relation.
-/
namespace BlockStudio.Script

/-- The agenda in another state. -/
def Agenda.inState (a : Agenda) (s : State) : Agenda := { a with state := s }

/-- A relation of states that differ in nothing that decides what scripts do. -/
structure Harmless (R : State → State → Prop) : Prop where
  score_eq {s s' : State} : R s s' → s'.world.score = s.world.score
  touches_eq {s s' : State} : R s s' → s'.world.touchesPlayer = s.world.touchesPlayer
  keys_eq {s s' : State} : R s s' → s'.world.isKeyDown = s.world.isKeyDown
  addTimer {s s' : State} (t : Float × String × List Action) : R s s' →
    R (s.addTimer t) (s'.addTimer t)
  ageOverlay {s s' : State} (dt : Float) : R s s' → R (s.ageOverlay dt) (s'.ageOverlay dt)
  mirrorScore {s s' : State} : R s s' → R s.mirrorScore s'.mirrorScore
  next (p : Program) (m : Moment) {a : Agenda} {s' : State} : R a.state s' →
    ∃ t', (a.inState s').next p m = (a.next p m).inState t' ∧ R (a.next p m).state t'

namespace Harmless
variable {R : State → State → Prop} {p : Program} {m : Moment} {s s' : State}

/-- Work that comes to an end in one state comes to the same end in a related one. -/
theorem related_of_reaches (hR : Harmless R) {a : Agenda} {ran ran' : List Ran} {t t' : State}
    (h : R a.state s') (hreach : Reaches p m a ⟨[], 0, [], ran, t⟩)
    (hreach' : Reaches p m (a.inState s') ⟨[], 0, [], ran', t'⟩) :
    R t t' := by
  let S (a b : Agenda) : Prop := ∃ s', b = a.inState s' ∧ R a.state s'
  have hstep : ∀ a b, S a b → ∃ b', Reaches p m b b' ∧ S (a.next p m) b' := by
    rintro a b ⟨s', rfl, hs⟩
    exact ⟨_, ⟨1, rfl⟩, hR.next p m hs⟩
  obtain ⟨c, hreachc, u, rfl, hu⟩ := Reaches.simulate hstep hreach ⟨s', rfl, h⟩
  have hend : t' = u := congrArg Agenda.state (hreach'.unique rfl hreachc rfl)
  rw [hend]
  exact hu

theorem fireAll (hR : Harmless R) (h : R s s') (fired : List (String × List Action)) :
    R (fireAll p m fired s) (fireAll p m fired s') := by
  obtain ⟨ran, hreach⟩ := reaches_fireAll (p := p) (m := m) fired [] [] [] s
  obtain ⟨ran', hreach'⟩ := reaches_fireAll (p := p) (m := m) fired [] [] [] s'
  exact hR.related_of_reaches (a := ⟨[.start true fired], 0, [], [], s⟩) h hreach hreach'

theorem startAll (hR : Harmless R) (h : R s s') (lists : List (String × List Action)) :
    R (startAll p m lists s) (startAll p m lists s') := by
  obtain ⟨ran, hreach⟩ := reaches_startAll (p := p) (m := m) lists [] [] [] s
  obtain ⟨ran', hreach'⟩ := reaches_startAll (p := p) (m := m) lists [] [] [] s'
  exact hR.related_of_reaches (a := ⟨[.start false lists], 0, [], [], s⟩) h hreach hreach'

theorem resumeDue (hR : Harmless R) (h : R s s') : R (resumeDue p m s) (resumeDue p m s') := by
  obtain ⟨ran, hreach⟩ := reaches_look (p := p) (m := m) [] [] s
  obtain ⟨ran', hreach'⟩ := reaches_look (p := p) (m := m) [] [] s'
  exact hR.related_of_reaches (a := ⟨[.look], 0, [], [], s⟩) h hreach hreach'

theorem addTimers (hR : Harmless R) (h : R s s') (timers : List (Float × String × List Action)) :
    R (timers.foldl State.addTimer s) (timers.foldl State.addTimer s') := by
  induction timers generalizing s s' with
  | nil => exact h
  | cons t timers ih => exact ih (hR.addTimer t h)

section
variable (hR : Harmless R) (session : Session) (dt : Float) (h : R s s')
include hR h

theorem begun :
    R (s.ageOverlay (frameTime dt)).mirrorScore (s'.ageOverlay (frameTime dt)).mirrorScore :=
  hR.mirrorScore (hR.ageOverlay (frameTime dt) h)

theorem beforeTouches : R (session.beforeTouches dt s) (session.beforeTouches dt s') := by
  have hbegun := hR.begun dt h
  rw [Session.beforeTouches, Session.beforeTouches, hR.score_eq hbegun]
  exact hR.fireAll hbegun _

theorem beforeKeys : R (session.beforeKeys dt s) (session.beforeKeys dt s') := by
  have hbefore := hR.beforeTouches session dt h
  rw [Session.beforeKeys, Session.beforeKeys, hR.touches_eq hbefore]
  exact hR.fireAll hbefore _

theorem beforeLook : R (session.beforeLook dt s) (session.beforeLook dt s') := by
  have hbefore := hR.beforeKeys session dt h
  change R (Script.fireAll _ _ (risen _ (session.beforeKeys dt s).world.isKeyDown _)
    (session.beforeKeys dt s))
    (Script.fireAll _ _ (risen _ (session.beforeKeys dt s').world.isKeyDown _)
    (session.beforeKeys dt s'))
  rw [hR.keys_eq hbefore]
  exact hR.fireAll hbefore _

/-- A frame of a session goes the same way in related states, whatever the session holds of them. -/
theorem advance (kept : State) :
    R (session.advance dt s).2 ((session.withState kept).advance dt s').2 ∧
      ((session.withState kept).advance dt s').1 =
        (session.advance dt s).1.withState ((session.withState kept).advance dt s').2 := by
  refine ⟨hR.resumeDue (hR.beforeLook session dt h), ?_⟩
  have htouches : ((session.withState kept).beforeTouches dt s').world.touchesPlayer =
    (session.beforeTouches dt s).world.touchesPlayer :=
    hR.touches_eq (hR.beforeTouches session dt h)
  have hkeys : ((session.withState kept).beforeKeys dt s').world.isKeyDown =
    (session.beforeKeys dt s).world.isKeyDown := hR.keys_eq (hR.beforeKeys session dt h)
  rw [Session.advance_fst, Session.advance_fst, hR.score_eq (hR.begun dt h), htouches, hkeys]
  rfl

end

end Harmless

namespace Engine

/-- The state in which a session begins, before the handlers are registered. -/
def initial (e : Engine) (d : Document) (w : World) : State :=
  ⟨.ofList (d.variableNames.map (·, 0)), none, [], e.lastTaskId, .empty, e.random, w⟩

/-- Two engines have come as far in a session of the same handlers, in related states. -/
structure Follows (R : State → State → Prop) (r r' : Engine × World) : Prop where
  limits_eq : r'.1.limits = r.1.limits
  session : ∃ session kept, r.1.session = some session ∧
    r'.1.session = some (session.withState kept)
  related : R (r.1.state r.2) (r'.1.state r'.2)

end Engine

/-- Two beats take the same time and change related states into related ones. -/
structure Beat.Agrees (R : State → State → Prop) (b b' : Beat) : Prop where
  seconds_eq : b'.seconds = b.seconds
  related {s s' : State} : R s s' →
    R { s with world := b.change s.world } { s' with world := b'.change s'.world }

namespace Harmless
variable {R : State → State → Prop} {e e' : Engine} {d d' : Document} {w w' : World}

theorem start (hR : Harmless R) (hlimits : e'.limits = e.limits)
    (hhandlers : Handler.ofDocument d' = Handler.ofDocument d)
    (h : R (e.initial d w) (e'.initial d' w')) :
    Engine.Follows R (e.start d w) (e'.start d' w') := by
  have htimers := hR.addTimers (hR.mirrorScore h) ((Handler.ofDocument d).filterMap Handler.timer?)
  have hstate := hR.startAll (p := e.programOf d) (m := .start) htimers
    ((Handler.ofDocument d).filterMap Handler.start?)
  have hbegin : (Session.begin e'.limits d' e'.lastTaskId e'.random w').2 =
      Script.startAll (e.programOf d) .start ((Handler.ofDocument d).filterMap Handler.start?)
        (((Handler.ofDocument d).filterMap Handler.timer?).foldl State.addTimer
          (e'.initial d' w').mirrorScore) := by
    simp only [Session.begin, hlimits, hhandlers]
    rfl
  have hsession : (Session.begin e'.limits d' e'.lastTaskId e'.random w').1 =
      (Session.begin e.limits d e.lastTaskId e.random w).1.withState
        (Session.begin e'.limits d' e'.lastTaskId e'.random w').2 := by
    simp only [Session.begin, hlimits, hhandlers]
    rfl
  refine ⟨hlimits, ⟨_, _, rfl, congrArg some hsession⟩, ?_⟩
  rw [← hbegin] at hstate
  exact hstate

theorem beat (hR : Harmless R) {r r' : Engine × World} {b b' : Beat} (h : Engine.Follows R r r')
    (hb : b.Agrees R b') : Engine.Follows R (Engine.beat r b) (Engine.beat r' b') := by
  obtain ⟨hlimits, ⟨session, kept, hs, hs'⟩, hstate⟩ := h
  have hchanged : R (r.1.state (b.change r.2)) (r'.1.state (b'.change r'.2)) := hb.related hstate
  obtain ⟨hsession, hafter⟩ := Engine.session_beat hs b
  obtain ⟨hsession', hafter'⟩ := Engine.session_beat hs' b'
  obtain ⟨hrelated, hnext⟩ := hR.advance session b.seconds hchanged kept
  rw [hb.seconds_eq] at hsession' hafter'
  refine ⟨?_, ⟨_, _, hsession, by rw [hsession', hnext]⟩, by rw [hafter, hafter']; exact hrelated⟩
  rw [Engine.beat_of_session hs, Engine.beat_of_session hs']
  exact hlimits

/-- Plays of documents with the same handlers go the same way from states that differ harmlessly,
and go on so. -/
theorem play (hR : Harmless R) (hlimits : e'.limits = e.limits)
    (hhandlers : Handler.ofDocument d' = Handler.ofDocument d)
    (h : R (e.initial d w) (e'.initial d' w')) {beats beats' : List Beat}
    (hbeats : List.Forall₂ (Beat.Agrees R) beats beats') :
    Engine.Follows R (e.play d w beats) (e'.play d' w' beats') := by
  have hfollows := hR.start hlimits hhandlers h
  unfold Engine.play
  generalize e.start d w = r at hfollows ⊢
  generalize e'.start d' w' = r' at hfollows ⊢
  induction hbeats generalizing r r' with
  | nil => exact hfollows
  | cons hb _ ih => exact ih _ _ (hR.beat hfollows hb)

end Harmless

end BlockStudio.Script
