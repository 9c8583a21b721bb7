import BlockStudio.Proofs.Plays
import Mathlib.Data.List.Induction

/-!
Nothing of an earlier session reaches the next one but the random source and the counter of task
ids. All work is the same for tasks whose ids stand higher by a constant, as long as the counter
does not run out. Main statement: two engines with the same limits and the same random source play a
document alike, whatever they did before, and only the ids of their tasks lie a constant apart.
-/
namespace BlockStudio.Script

def Task.shift (k : Nat) (t : Task) : Task := { t with id := t.id + k }

/-- The state with all task ids, and their counter, higher by `k`. -/
def State.shift (k : Nat) (s : State) : State :=
  s.withTasks (s.pending.map (Task.shift k)) (s.lastTaskId + k)

def Entry.shift (k : Nat) : Entry → Entry
  | .resumed t => .resumed (t.shift k)
  | .launched id origin actions => .launched (id + k) origin actions

def Ran.shift (k : Nat) (r : Ran) : Ran := { r with entry := r.entry.shift k }

def Duty.shift (k : Nat) : Duty → Duty
  | .run entry stack => .run (entry.shift k) stack
  | .resume waiting => .resume (waiting.map (Task.shift k))
  | duty => duty

def Agenda.shift (k : Nat) (a : Agenda) : Agenda where
  duties := a.duties.map (Duty.shift k)
  nesting := a.nesting
  kept := a.kept.map (Task.shift k)
  ran := a.ran.map (Ran.shift k)
  state := a.state.shift k

def Session.shift (k : Nat) (s : Session) : Session :=
  { s with pending := s.pending.map (Task.shift k) }

/-- The engine with all task ids of its session, and their counter, higher by `k`. -/
def Engine.shift (k : Nat) (e : Engine) : Engine :=
  { e with lastTaskId := e.lastTaskId + k, session := e.session.map (Session.shift k) }

section
variable (k : Nat) {p : Program} {m : Moment}

@[simp] theorem Entry.origin_shift (entry : Entry) : (entry.shift k).origin = entry.origin := by
  cases entry <;> rfl

theorem Ran.waiting?_shift (r : Ran) : (r.shift k).waiting? = r.waiting?.map (Task.shift k) := by
  obtain ⟨entry, rest⟩ := r
  cases entry <;> cases rest <;> rfl

theorem State.keep_shift (s : State) (id : Nat) (origin : String) (rest : Option (Wake × Stack)) :
    (s.shift k).keep (id + k) origin rest = (s.keep id origin rest).shift k := by
  cases rest with
  | none => rfl
  | some rest => simp [State.keep, State.shift, State.withTasks, Task.shift]

theorem State.emit_shift (s : State) (content : EventContent) :
    (s.shift k).emit content = (s.emit content).shift k := by
  simp only [State.emit, State.shift, State.withTasks]

/-- A counter that has not run out counts up alike wherever it stands. -/
theorem countUp_shift {n : Nat} (h : Number.countUp (n + k) 1 < Number.counterMax) :
    Number.countUp (n + k) 1 = Number.countUp n 1 + k := by
  have hnew : Number.countUp (n + k) 1 = n + k + 1 := Number.countUp_of_lt h
  rw [hnew] at h ⊢
  rw [Number.countUp_of_le (by omega)]
  omega

theorem advance_shift (origin : String) (stack : Stack) (s : State) :
    advance p m none origin stack (s.shift k) =
      (advance p m none origin stack s).map (State.shift k) := by
  obtain ⟨hpending, hlast⟩ := @advance_none_tasks p m origin stack s
  rw [State.shift, advance_withTasks]
  cases hresult : advance p m none origin stack s <;> rw [hresult] at hpending hlast <;>
    simp only [Progress.state] at hpending hlast <;>
      simp only [Progress.map, State.shift, hpending, hlast]

namespace Agenda

theorem leave_shift (a : Agenda) (entry : Entry) (rest : Option (Wake × Stack)) :
    (a.shift k).leave (entry.shift k) rest = (a.leave entry rest).shift k := by
  cases entry with
  | resumed t =>
    have hwaiting : (Ran.mk (.resumed (t.shift k)) rest).waiting? =
        (Ran.mk (.resumed t) rest).waiting?.map (Task.shift k) :=
      Ran.waiting?_shift k ⟨.resumed t, rest⟩
    simp only [leave, shift, Entry.shift, hwaiting, Option.toList_map, List.map_append]
    rfl
  | launched id origin actions =>
    simp only [leave, shift, Entry.shift, State.keep_shift, List.map_append]
    rfl

theorem launch_shift (a : Agenda) (origin : String) (actions : List Action) (duties : List Duty)
    (h : Number.countUp (a.state.lastTaskId + k) 1 < Number.counterMax) :
    (a.shift k).launch origin actions (duties.map (Duty.shift k)) =
      (a.launch origin actions duties).shift k := by
  have hcount : Number.countUp (a.state.shift k).lastTaskId 1 =
      Number.countUp a.state.lastTaskId 1 + k :=
    countUp_shift k h
  simp only [launch, State.takeTaskId, shift, hcount]
  rfl

theorem goOn_shift (a : Agenda) (entry : Entry) (stack : Stack) (duties : List Duty) :
    (a.shift k).goOn p m (entry.shift k) stack (duties.map (Duty.shift k)) =
      (a.goOn p m entry stack duties).shift k := by
  have hwatched : watchedWrite? p (a.state.shift k) stack = watchedWrite? p a.state stack :=
    watchedWrite?_withTasks _ _ _ stack
  unfold goOn
  rw [show (a.shift k).nesting = a.nesting from rfl,
    show (a.shift k).state = a.state.shift k from rfl, hwatched]
  split
  · rename_i w _
    have hstore : (a.state.shift k).store w.name w.value =
        (a.state.store w.name w.value).shift k := by
      simp only [State.shift, State.store_withTasks, State.pending_store, State.lastTaskId_store]
    rw [hstore]
    rfl
  · rw [Entry.origin_shift, advance_shift]
    cases advance p m none entry.origin stack a.state with
    | running stack s => rfl
    | suspended wake stack s => exact leave_shift k { a with duties, state := s } entry _
    | finished s => exact leave_shift k { a with duties, state := s } entry _

/-- A step does the same for tasks whose ids stand higher. -/
theorem next_shift {a : Agenda} (h : ((a.shift k).next p m).state.lastTaskId < Number.counterMax) :
    (a.shift k).next p m = (a.next p m).shift k := by
  obtain ⟨duties, nesting, kept, ran, s⟩ := a
  cases duties with
  | nil => rfl
  | cons duty duties =>
    cases duty with
    | run entry stack => exact goOn_shift k _ entry stack duties
    | watch name lists =>
      cases lists with
      | nil => rfl
      | cons actions lists => exact launch_shift k _ _ _ (.watch name lists :: duties) h
    | start announced lists =>
      cases lists with
      | nil => rfl
      | cons e lists =>
        obtain ⟨origin, actions⟩ := e
        cases announced with
        | false => exact launch_shift k _ _ _ (.start false lists :: duties) h
        | true =>
          have hcount : Number.countUp ((s.emit (.triggerFired origin)).lastTaskId + k) 1 <
              Number.counterMax := by
            rw [State.lastTaskId_emit]
            exact h
          have hlaunch :=
            launch_shift k ⟨duties, nesting, kept, ran, s.emit (.triggerFired origin)⟩ origin
              actions (.start true lists :: duties) hcount
          simp only [shift, ← State.emit_shift] at hlaunch
          simp only [next, if_pos, shift, Duty.shift, List.map_cons]
          exact hlaunch
    | touch t => rfl
    | key t => rfl
    | look => rfl
    | resume waiting =>
      cases waiting with
      | nil =>
        have hsort : ((kept ++ s.pending).mergeSort fun t u => t.id ≤ u.id).map (Task.shift k) =
            ((kept ++ s.pending).map (Task.shift k)).mergeSort fun t u => t.id ≤ u.id := by
          apply List.map_mergeSort
          simp [Task.shift]
        simp only [next, shift, Duty.shift, List.map_cons, List.map_nil, State.shift,
          State.withTasks, hsort, List.map_append]
      | cons t waiting =>
        by_cases hdue : t.wake.isDue m = true
        · have hdue' : (t.shift k).wake.isDue m = true := hdue
          simp only [next, shift, Duty.shift, List.map_cons, if_pos hdue, if_pos hdue', Entry.shift]
          rfl
        · have hdue' : ¬(t.shift k).wake.isDue m = true := hdue
          simp only [next, shift, Duty.shift, List.map_cons, if_neg hdue,
            if_neg hdue', List.map_append, List.map_nil]

theorem lastTaskId_leave (a : Agenda) (entry : Entry) (rest : Option (Wake × Stack)) :
    (a.leave entry rest).state.lastTaskId = a.state.lastTaskId := by
  cases entry with
  | resumed t => rfl
  | launched id origin actions => cases rest <;> rfl

/-- A step takes one task id or none. -/
theorem lastTaskId_next (a : Agenda) :
    (a.next p m).state.lastTaskId = a.state.lastTaskId ∨
      (a.next p m).state.lastTaskId = Number.countUp a.state.lastTaskId 1 := by
  obtain ⟨duties, nesting, kept, ran, s⟩ := a
  cases duties with
  | nil => exact .inl rfl
  | cons duty duties =>
    cases duty with
    | run entry stack =>
      obtain ⟨-, hlast⟩ := @advance_none_tasks p m entry.origin stack s
      refine .inl ?_
      simp only [next, goOn]
      split
      · exact State.lastTaskId_store _ _ _
      · cases hresult : advance p m none entry.origin stack s <;> rw [hresult] at hlast
        · exact (lastTaskId_leave _ _ _).trans hlast
        · exact (lastTaskId_leave _ _ _).trans hlast
        · exact hlast
    | watch name lists =>
      cases lists with
      | nil => exact .inl rfl
      | cons actions lists => exact .inr rfl
    | start announced lists =>
      cases lists with
      | nil => exact .inl rfl
      | cons e lists => cases announced <;> exact .inr (by simp [next, launch, State.takeTaskId])
    | resume waiting =>
      cases waiting with
      | nil => exact .inl rfl
      | cons t waiting =>
        simp only [next]
        split <;> exact .inl rfl
    | _ => exact .inl rfl

end Agenda

/-- A counter of ids that has not run out at the end had not run out before. -/
theorem Reaches.lastTaskId_lt {a c : Agenda} (h : Reaches p m a c)
    (hlt : c.state.lastTaskId < Number.counterMax) :
    a.state.lastTaskId < Number.counterMax := by
  obtain ⟨n, rfl⟩ := h
  induction n generalizing a with
  | zero => exact hlt
  | succ n ih =>
    rw [Function.iterate_succ_apply] at hlt
    have hnext := ih hlt
    rcases a.lastTaskId_next (p := p) (m := m) with hsame | hnew
    · rwa [hsame] at hnext
    · exact Number.lt_of_countUp_lt (hnew ▸ hnext)

/-- Work on tasks whose ids stand higher comes to the same end, if the counter of ids does not run
out. The shifted agenda keeps its way to the end, where the counter has not run out. -/
theorem shift_of_reaches {a : Agenda} {ran ran' : List Ran} {s s' : State}
    (h : Reaches p m a ⟨[], 0, [], ran, s⟩) (h' : Reaches p m (a.shift k) ⟨[], 0, [], ran', s'⟩)
    (hlt : s'.lastTaskId < Number.counterMax) :
    s' = s.shift k := by
  let R (a b : Agenda) : Prop := b = a.shift k ∧ Reaches p m b ⟨[], 0, [], ran', s'⟩
  have hstep : ∀ a b, R a b → ∃ b', Reaches p m b b' ∧ R (a.next p m) b' := by
    rintro a b ⟨rfl, hreach⟩
    have hnext : Reaches p m ((a.shift k).next p m) ⟨[], 0, [], ran', s'⟩ := hreach.onward rfl 1
    refine ⟨(a.shift k).next p m, ⟨1, rfl⟩, ?_, hnext⟩
    exact Agenda.next_shift k (hnext.lastTaskId_lt hlt)
  obtain ⟨c, hreach, rfl, -⟩ := Reaches.simulate hstep h ⟨rfl, h'⟩
  exact congrArg Agenda.state (h'.unique rfl hreach rfl)

section
variable {k} (s : State)

theorem fireAll_shift (fired : List (String × List Action))
    (h : (fireAll p m fired (s.shift k)).lastTaskId < Number.counterMax) :
    fireAll p m fired (s.shift k) = (fireAll p m fired s).shift k := by
  obtain ⟨ran, hreach⟩ := reaches_fireAll (p := p) (m := m) fired [] [] [] s
  obtain ⟨ran', hreach'⟩ := reaches_fireAll (p := p) (m := m) fired [] [] [] (s.shift k)
  exact shift_of_reaches k hreach hreach' h

theorem startAll_shift (lists : List (String × List Action))
    (h : (startAll p m lists (s.shift k)).lastTaskId < Number.counterMax) :
    startAll p m lists (s.shift k) = (startAll p m lists s).shift k := by
  obtain ⟨ran, hreach⟩ := reaches_startAll (p := p) (m := m) lists [] [] [] s
  obtain ⟨ran', hreach'⟩ := reaches_startAll (p := p) (m := m) lists [] [] [] (s.shift k)
  exact shift_of_reaches k hreach hreach' h

theorem resumeDue_shift (h : (resumeDue p m (s.shift k)).lastTaskId < Number.counterMax) :
    resumeDue p m (s.shift k) = (resumeDue p m s).shift k := by
  obtain ⟨ran, hreach⟩ := reaches_pass (p := p) (m := m) [] [] s
  obtain ⟨ran', hreach'⟩ := reaches_pass (p := p) (m := m) [] [] (s.shift k)
  exact shift_of_reaches k hreach hreach' h

theorem lastTaskId_fireAll_lt {fired : List (String × List Action)}
    (h : (fireAll p m fired s).lastTaskId < Number.counterMax) :
    s.lastTaskId < Number.counterMax := by
  obtain ⟨ran, hreach⟩ := reaches_fireAll (p := p) (m := m) fired [] [] [] s
  exact hreach.lastTaskId_lt h

theorem lastTaskId_startAll_lt {lists : List (String × List Action)}
    (h : (startAll p m lists s).lastTaskId < Number.counterMax) :
    s.lastTaskId < Number.counterMax := by
  obtain ⟨ran, hreach⟩ := reaches_startAll (p := p) (m := m) lists [] [] [] s
  exact hreach.lastTaskId_lt h

theorem lastTaskId_resumeDue_lt (h : (resumeDue p m s).lastTaskId < Number.counterMax) :
    s.lastTaskId < Number.counterMax := by
  obtain ⟨ran, hreach⟩ := reaches_pass (p := p) (m := m) [] [] s
  exact hreach.lastTaskId_lt h

theorem lastTaskId_addTimers_lt {timers : List (Float × String × List Action)}
    (h : (timers.foldl State.addTimer s).lastTaskId < Number.counterMax) :
    s.lastTaskId < Number.counterMax := by
  induction timers generalizing s with
  | nil => exact h
  | cons t timers ih =>
    have hlast : (s.addTimer t).lastTaskId = Number.countUp s.lastTaskId 1 := rfl
    have hlt := ih (s.addTimer t) h
    exact Number.lt_of_countUp_lt (hlast ▸ hlt)

theorem addTimer_shift {t : Float × String × List Action}
    (h : ((s.shift k).addTimer t).lastTaskId < Number.counterMax) :
    (s.shift k).addTimer t = (s.addTimer t).shift k := by
  have hcount : Number.countUp (s.shift k).lastTaskId 1 = Number.countUp s.lastTaskId 1 + k :=
    countUp_shift k h
  simp only [State.addTimer, State.takeTaskId, hcount, ← State.keep_shift]
  rfl

theorem addTimers_shift {timers : List (Float × String × List Action)}
    (h : (timers.foldl State.addTimer (s.shift k)).lastTaskId < Number.counterMax) :
    timers.foldl State.addTimer (s.shift k) = (timers.foldl State.addTimer s).shift k := by
  induction timers generalizing s with
  | nil => rfl
  | cons t timers ih =>
    have htimer := addTimer_shift s (lastTaskId_addTimers_lt _ h)
    rw [List.foldl_cons, htimer] at h ⊢
    exact ih (s.addTimer t) h

end

/-- A session that begins with a higher counter of ids is the same session but for the ids of its
tasks. -/
theorem Session.begin_shift (limits : Limits) (d : Document) (lastTaskId : Nat)
    (random : Random) (world : World)
    (h : (Session.begin limits d (lastTaskId + k) random world).2.lastTaskId < Number.counterMax) :
    Session.begin limits d (lastTaskId + k) random world =
      ((Session.begin limits d lastTaskId random world).1.shift k,
        (Session.begin limits d lastTaskId random world).2.shift k) := by
  let timers := (Handler.ofDocument d).filterMap Handler.timer?
  let fresh (n : Nat) : State :=
    State.mirrorScore ⟨.ofList (d.variableNames.map (·, 0)), none, [], n, .empty, random, world⟩
  have hfresh : fresh (lastTaskId + k) = (fresh lastTaskId).shift k := rfl
  have htimers : timers.foldl State.addTimer (fresh (lastTaskId + k)) =
      (timers.foldl State.addTimer (fresh lastTaskId)).shift k := by
    have hlt := lastTaskId_startAll_lt _ h
    rw [hfresh]
    exact addTimers_shift _ hlt
  have hstate : (Session.begin limits d (lastTaskId + k) random world).2 =
      (Session.begin limits d lastTaskId random world).2.shift k := by
    have hstart := h
    simp only [Session.begin] at hstart ⊢
    change startAll _ _ _ (timers.foldl State.addTimer (fresh (lastTaskId + k))) = _
    change (startAll _ _ _ (timers.foldl State.addTimer (fresh (lastTaskId + k)))).lastTaskId <
      _ at hstart
    rw [htimers] at hstart ⊢
    exact startAll_shift _ _ hstart
  refine Prod.ext ?_ hstate
  have hsession : ∀ n, (Session.begin limits d n random world).1 =
      { (Session.begin limits d lastTaskId random world).1 with
        variableValues := (Session.begin limits d n random world).2.variableValues
        overlay := (Session.begin limits d n random world).2.overlay
        pending := (Session.begin limits d n random world).2.pending } := fun _ => rfl
  rw [hsession, hstate]
  rfl

/-- A frame of a session does the same for tasks whose ids stand higher. -/
theorem Session.advance_shift (s : Session) (dt : Float) (st : State)
    (h : ((s.shift k).advance dt (st.shift k)).2.lastTaskId < Number.counterMax) :
    (s.shift k).advance dt (st.shift k) =
      ((s.advance dt st).1.shift k, (s.advance dt st).2.shift k) := by
  let m := s.moment.after (frameTime dt)
  let aged := (st.ageOverlay (frameTime dt)).mirrorScore
  let scored (st : State) := fireAll s.program m (fireScores st.world.score s.scores).1 st
  let touched (st : State) :=
    fireAll s.program m (risen (Trigger.label ∘ .touch) st.world.touchesPlayer s.touches) st
  let pressed (st : State) :=
    fireAll s.program m (risen (Trigger.label ∘ .key) st.world.isKeyDown s.keys) st
  have hlook : (resumeDue s.program m (pressed (touched (scored (aged.shift k))))).lastTaskId <
      Number.counterMax := h
  have hpressed := lastTaskId_resumeDue_lt _ hlook
  have htouched := lastTaskId_fireAll_lt _ hpressed
  have hscored := lastTaskId_fireAll_lt _ htouched
  have hscores : scored (aged.shift k) = (scored aged).shift k := fireAll_shift aged _ hscored
  rw [hscores] at htouched hpressed hlook
  have htouches : touched ((scored aged).shift k) = (touched (scored aged)).shift k :=
    fireAll_shift (scored aged) _ htouched
  rw [htouches] at hpressed hlook
  have hkeys : pressed ((touched (scored aged)).shift k) =
      (pressed (touched (scored aged))).shift k :=
    fireAll_shift (touched (scored aged)) _ hpressed
  rw [hkeys] at hlook
  have hstate : ((s.shift k).advance dt (st.shift k)).2 = (s.advance dt st).2.shift k := by
    change resumeDue s.program m (pressed (touched (scored (aged.shift k)))) = _
    rw [hscores, htouches, hkeys]
    exact resumeDue_shift _ hlook
  refine Prod.ext ?_ hstate
  have hsession : ((s.shift k).advance dt (st.shift k)).1 =
      { s with
        moment := m
        touches := sense (scored (aged.shift k)).world.touchesPlayer s.touches
        keys := sense (touched (scored (aged.shift k))).world.isKeyDown s.keys
        scores := (fireScores aged.world.score s.scores).2
        variableValues := ((s.shift k).advance dt (st.shift k)).2.variableValues
        overlay := ((s.shift k).advance dt (st.shift k)).2.overlay
        pending := ((s.shift k).advance dt (st.shift k)).2.pending } := rfl
  rw [hsession, hstate, hscores, htouches]
  rfl

theorem Session.lastTaskId_advance_lt (s : Session) (dt : Float) (st : State)
    (h : (s.advance dt st).2.lastTaskId < Number.counterMax) :
    st.lastTaskId < Number.counterMax := by
  obtain ⟨ran, hreach⟩ := reaches_advance s dt st
  exact hreach.lastTaskId_lt h

end

namespace Engine
variable {k : Nat}

theorem start_shift {e e' : Engine} (hlimits : e.limits = e'.limits)
    (hrandom : e.random = e'.random) (hlast : e'.lastTaskId = e.lastTaskId + k)
    (d : Document) (w : World) (h : (e'.start d w).1.lastTaskId < Number.counterMax) :
    e'.start d w = ((e.start d w).1.shift k, (e.start d w).2) := by
  have hbegin := Session.begin_shift k e.limits d e.lastTaskId e.random w
  simp only [start, resume, ← hlimits, ← hrandom, hlast] at h ⊢
  rw [hbegin h]
  rfl

theorem update_shift (e : Engine) (dt : Float) (w : World)
    (h : ((e.shift k).update dt w).1.lastTaskId < Number.counterMax) :
    (e.shift k).update dt w = ((e.update dt w).1.shift k, (e.update dt w).2) := by
  cases hs : e.session with
  | none => simp [update, shift, hs]
  | some s =>
    have hadvance := Session.advance_shift k s dt (s.state e.lastTaskId e.faults e.random w)
    have hsession : (e.shift k).session = some (s.shift k) := by simp [shift, hs]
    simp only [update, hs, hsession] at h ⊢
    have hafter := hadvance h
    change (e.shift k).resume
      ((s.shift k).advance dt ((s.state e.lastTaskId e.faults e.random w).shift k)) = _
    rw [hafter]
    rfl

theorem lastTaskId_update_lt (e : Engine) (dt : Float) (w : World)
    (h : (e.update dt w).1.lastTaskId < Number.counterMax) : e.lastTaskId < Number.counterMax := by
  cases hs : e.session with
  | none => simpa [update, hs] using h
  | some s =>
    simp only [update, hs] at h
    exact s.lastTaskId_advance_lt dt (s.state e.lastTaskId e.faults e.random w) h

theorem play_shift {e e' : Engine} (hlimits : e.limits = e'.limits) (hrandom : e.random = e'.random)
    (hlast : e'.lastTaskId = e.lastTaskId + k) (d : Document) (w : World) (beats : List Beat)
    (h : (e'.play d w beats).1.lastTaskId < Number.counterMax) :
    e'.play d w beats = ((e.play d w beats).1.shift k, (e.play d w beats).2) := by
  induction beats using List.reverseRecOn with
  | nil => exact start_shift hlimits hrandom hlast d w h
  | append_singleton beats b ih =>
    rw [play_concat, beat] at h
    have hplay := ih (lastTaskId_update_lt _ _ _ h)
    rw [play_concat, play_concat, beat, beat, hplay]
    rw [hplay] at h
    exact update_shift _ _ _ h

/-- Two engines with the same limits and the same random source play a document alike, whatever
sessions they ran before, and whether these were stopped or not. Only the ids of their tasks lie
apart, all by the same number. -/
theorem play_forgets_past {e e' : Engine} (hlimits : e.limits = e'.limits)
    (hrandom : e.random = e'.random) (d : Document) (w : World) (beats : List Beat)
    (h : (e.play d w beats).1.lastTaskId < Number.counterMax)
    (h' : (e'.play d w beats).1.lastTaskId < Number.counterMax) :
    ∃ k, (e'.lastTaskId = e.lastTaskId + k ∧
        e'.play d w beats = ((e.play d w beats).1.shift k, (e.play d w beats).2)) ∨
      (e.lastTaskId = e'.lastTaskId + k ∧
        e.play d w beats = ((e'.play d w beats).1.shift k, (e'.play d w beats).2)) := by
  rcases Nat.le_total e.lastTaskId e'.lastTaskId with hle | hle
  · obtain ⟨k, hk⟩ := Nat.exists_eq_add_of_le hle
    exact ⟨k, .inl ⟨hk, play_shift hlimits hrandom hk d w beats h'⟩⟩
  · obtain ⟨k, hk⟩ := Nat.exists_eq_add_of_le hle
    exact ⟨k, .inr ⟨hk, play_shift hlimits.symm hrandom.symm hk d w beats h⟩⟩

/-- A document with a timer. -/
def timedDocument : Document :=
  ⟨[⟨1, 0, 0, [⟨(), "on_timer", .ofList [("seconds", "1")], none, none⟩,
      ⟨(), "add_score", .ofList [("amount", "1")], none, none⟩]⟩], ["x"]⟩

/-- An engine that played the document with the timer before, and is still at it. -/
def busyEngine : Engine := ((ofSeed ⟨64, 0, 16⟩ 7).start timedDocument .empty).1

theorem play_forgets_past_busyEngine :
    ∃ k, (busyEngine.lastTaskId = (ofSeed ⟨64, 0, 16⟩ 7).lastTaskId + k ∧
        busyEngine.play timedDocument .empty [⟨id, 0.5⟩, ⟨id, 1⟩] =
          (((ofSeed ⟨64, 0, 16⟩ 7).play timedDocument .empty [⟨id, 0.5⟩, ⟨id, 1⟩]).1.shift k,
            ((ofSeed ⟨64, 0, 16⟩ 7).play timedDocument .empty [⟨id, 0.5⟩, ⟨id, 1⟩]).2)) ∨
      ((ofSeed ⟨64, 0, 16⟩ 7).lastTaskId = busyEngine.lastTaskId + k ∧
        (ofSeed ⟨64, 0, 16⟩ 7).play timedDocument .empty [⟨id, 0.5⟩, ⟨id, 1⟩] =
          ((busyEngine.play timedDocument .empty [⟨id, 0.5⟩, ⟨id, 1⟩]).1.shift k,
            (busyEngine.play timedDocument .empty [⟨id, 0.5⟩, ⟨id, 1⟩]).2)) := by
  have hlimits : (ofSeed ⟨64, 0, 16⟩ 7).limits = busyEngine.limits := rfl
  have hrandom : (ofSeed ⟨64, 0, 16⟩ 7).random = busyEngine.random := rfl
  have hnew : ((ofSeed ⟨64, 0, 16⟩ 7).play timedDocument .empty [⟨id, 0.5⟩, ⟨id, 1⟩]).1.lastTaskId <
      Number.counterMax := by decide +kernel
  have hbusy : (busyEngine.play timedDocument .empty [⟨id, 0.5⟩, ⟨id, 1⟩]).1.lastTaskId <
      Number.counterMax := by
    decide +kernel
  exact play_forgets_past hlimits hrandom timedDocument .empty _ hnew hbusy

end Engine

end BlockStudio.Script
