import BlockStudio.Proofs.Lockstep
import BlockStudio.Proofs.Outputs
import BlockStudio.Proofs.Traces

/-!
The course of work: every agenda that the work of a frame goes through, in order. A play with the
courses of its frames is a record of all that happens in it. What a step emits or records is what it
leaves in empty logs. Main statements: work that comes to an end has one course, and the logs of a
game grow by exactly what the steps emit and record.
-/
namespace BlockStudio.Script

/-- Work that is done to its end, with every agenda on the way to it. -/
inductive Course (p : Program) (m : Moment) : Agenda → List Agenda → Agenda → Prop
  | done {a : Agenda} (h : a.duties = []) : Course p m a [] a
  | next {a c : Agenda} {as : List Agenda} (h : a.duties ≠ [])
    (hrest : Course p m (a.next p m) as c) :
    Course p m a (a :: as) c

namespace Course
variable {p : Program} {m : Moment} {a c : Agenda} {as : List Agenda}

theorem reaches (h : Course p m a as c) : Reaches p m a c := by
  induction h with
  | done _ => exact .refl _
  | next _ _ ih => exact .head ih

theorem duties_eq_nil (h : Course p m a as c) : c.duties = [] := by
  induction h with
  | done h => exact h
  | next _ _ ih => exact ih

theorem head?_eq (h : Course p m a as c) (ha : a.duties ≠ []) : as.head? = some a := by
  cases h with
  | done h => contradiction
  | next _ _ => rfl

theorem exists_of_reaches (h : Reaches p m a c) (hc : c.duties = []) : ∃ as, Course p m a as c := by
  obtain ⟨n, rfl⟩ := h
  induction n generalizing a with
  | zero => exact ⟨[], .done hc⟩
  | succ n ih =>
    rw [Function.iterate_succ_apply] at hc ⊢
    by_cases ha : a.duties = []
    · rw [Agenda.next_of_done ha, Agenda.iterate_next_of_done ha]
      exact ⟨[], .done ha⟩
    · obtain ⟨as, has⟩ := ih hc
      exact ⟨a :: as, .next ha has⟩

theorem eq_of_reaches (h : Course p m a as c) {c' : Agenda} (hreach : Reaches p m a c')
    (hc : c'.duties = []) :
    c = c' :=
  h.reaches.unique h.duties_eq_nil hreach hc

/-- What steps keep holds all along, and at the end. -/
theorem forall_mem (Inv : Agenda → Prop) (hstep : ∀ a, Inv a → Inv (a.next p m))
    (h : Course p m a as c) (ha : Inv a) : (∀ b ∈ as, Inv b) ∧ Inv c := by
  induction h with
  | done _ => exact ⟨by simp, ha⟩
  | next _ _ ih =>
    obtain ⟨hall, hend⟩ := ih (hstep _ ha)
    exact ⟨List.forall_mem_cons.2 ⟨ha, hall⟩, hend⟩

/-- The rest of a course is a course. -/
theorem onward {b : Agenda} {earlier later : List Agenda}
    (h : Course p m a (earlier ++ b :: later) c) :
    Course p m b (b :: later) c := by
  induction earlier generalizing a with
  | nil =>
    cases h with
    | next ha hrest => exact .next ha hrest
  | cons _ earlier ih =>
    cases h with
    | next _ hrest => exact ih hrest

theorem getLast?_eq (h : Course p m a as c) (ha : a.duties ≠ []) :
    ∃ b, as.getLast? = some b ∧ b.next p m = c := by
  induction h with
  | done h => contradiction
  | @next a c as _ hrest ih =>
    cases hrest with
    | done _ => exact ⟨a, rfl, rfl⟩
    | next hne hrest =>
      obtain ⟨b, hlast, hnext⟩ := ih hne
      exact ⟨b, by rw [List.getLast?_cons_cons, hlast], hnext⟩

/-- Work with more duties behind its own goes the same way until its own duties are done. -/
theorem before (h : Course p m a as c) (later : List Duty) {bs : List Agenda} {b : Agenda}
    (hb : Course p m (a.before later) bs b) :
    ∃ rest, bs = as.map (·.before later) ++ rest ∧ Course p m (c.before later) rest b := by
  induction h generalizing bs with
  | done _ => exact ⟨bs, rfl, hb⟩
  | @next a c as ha _ ih =>
    cases hb with
    | done hnil => simp [Agenda.before, ha] at hnil
    | next _ hrest =>
      rw [Agenda.next_before ha] at hrest
      obtain ⟨rest, rfl, hafter⟩ := ih hrest
      exact ⟨rest, rfl, hafter⟩

end Course

/-- An action that comes next in a run. -/
structure NextAction where
  entry : Entry
  action : Action
  /-- The stack of the run after the action. -/
  stack : Stack
  /-- The duties behind the run. -/
  duties : List Duty

/-- The duties when the run comes to what follows the action. -/
def NextAction.after (n : NextAction) : List Duty := .run n.entry n.stack :: n.duties

def State.withLogs (s : State) (faults : FaultLog) (bus : EventBus) : State :=
  s.withUnread { s.unread with faults, bus }

namespace Agenda

def withLogs (a : Agenda) (faults : FaultLog) (bus : EventBus) : Agenda :=
  { a with state := a.state.withLogs faults bus }

def unlogged (a : Agenda) : Agenda := a.withLogs .empty { a.state.world.bus with log := .empty }

/-- The events that the next step emits: those that it leaves in empty logs. -/
def emitted (p : Program) (m : Moment) (a : Agenda) : List EventContent :=
  (a.unlogged.next p m).state.world.bus.log.entries.map (·.content)

/-- The faults that the next step records: those that it leaves in empty logs. -/
def recorded (p : Program) (m : Moment) (a : Agenda) : List Fault :=
  (a.unlogged.next p m).state.faults.entries

/-- The action that comes next, if a run goes on with one. -/
def action? (a : Agenda) : Option NextAction :=
  match a.duties with
  | .run entry (.sequence (action :: rest) isCall :: below) :: duties =>
    some ⟨entry, action, .sequence rest isCall :: below, duties⟩
  | _ => none

/-- The list that the next step starts for a trigger that fired, with the label of the trigger. -/
def announced? (a : Agenda) : Option (String × List Action) :=
  match a.duties.head? with
  | some (.start true (e :: _)) => some e
  | _ => none

section
variable {p : Program} {m : Moment}

theorem duties_of_action? {a : Agenda} {n : NextAction} (h : a.action? = some n) :
    ∃ rest isCall below,
    a.duties = .run n.entry (.sequence (n.action :: rest) isCall :: below) :: n.duties ∧
      n.stack = .sequence rest isCall :: below := by
  unfold action? at h
  split at h
  · rename_i hduties
    obtain rfl := Option.some.inj h
    exact ⟨_, _, _, hduties, rfl⟩
  · contradiction

/-- An action that starts no watchers is done by one step. -/
theorem next_of_action? {a : Agenda} {n : NextAction} {s : State} (h : a.action? = some n)
    (hunwatched : ∀ e name value, n.action = .effect e → e.write? a.state = some (name, value) →
      a.nesting < p.limits.maxCallDepth → p.watchers.get? name = none)
    (hact : act p m none n.entry.origin n.action n.stack a.state = .running n.stack s) :
    a.next p m = { a with duties := n.after, state := s } := by
  obtain ⟨rest, isCall, below, hduties, hstack⟩ := duties_of_action? h
  obtain ⟨duties, nesting, kept, ran, s₀⟩ := a
  subst hduties
  rw [hstack] at hact
  have hadvance :
      advance p m none n.entry.origin (.sequence (n.action :: rest) isCall :: below) s₀ =
      .running (.sequence rest isCall :: below) s := hact
  have hquiet : (if nesting < p.limits.maxCallDepth then
      watchedWrite? p s₀ (.sequence (n.action :: rest) isCall :: below) else none) = none := by
    split
    · rename_i hdeep
      cases haction : n.action with
      | effect e =>
        cases hwrite : e.write? s₀ with
        | none => simp [watchedWrite?, hwrite]
        | some w => simp [watchedWrite?, hwrite, hunwatched e w.1 w.2 haction hwrite hdeep]
      | _ => rfl
    · rfl
  rw [next_run_of_unwatched n.duties kept ran hquiet, hadvance, NextAction.after, hstack]

theorem advance_withLogs (origin : String) (stack : Stack) (s : State) : ∃ o : Output,
    (∀ label, o.event? ≠ some (.triggerFired label)) ∧ ∀ faults bus,
      advance p m none origin stack (s.withLogs faults bus) =
        (advance p m none origin stack s).map fun t =>
        t.withLogs ((o.faultAt? m origin).toList.foldl .push faults)
          (o.event?.toList.foldl .emit bus) := by
  have hunread : ∀ faults bus, s.withLogs faults bus = s.withUnread { s.unread with faults, bus } :=
    fun _ _ => rfl
  have houtcome : StepOutcome p origin stack s := stepOutcome stack s
  cases houtcome with
  | finished h =>
    subst h
    exact ⟨.none, by simp [Output.none], fun _ _ => rfl⟩
  | suspended wake stack' h =>
    have hown := h m s.unread
    rw [State.withUnread_unread] at hown
    refine ⟨.none, by simp [Output.none], fun faults bus => ?_⟩
    rw [hunread, h, hown]
    rfl
  | running stack' s' o ho h =>
    have hown := h m s.unread
    rw [State.withUnread_unread] at hown
    refine ⟨o, ho, fun faults bus => ?_⟩
    rw [hunread, h, hown]
    rfl

theorem leave_withLogs (a : Agenda) (entry : Entry) (rest : Option (Wake × Stack))
    (faults : FaultLog) (bus : EventBus) :
    (a.withLogs faults bus).leave entry rest = (a.leave entry rest).withLogs faults bus := by
  cases entry with
  | resumed t => rfl
  | launched id origin actions => cases rest <;> rfl

/-- A step puts out one event and one fault at most, whatever the logs are. A write is silent
itself, as its watchers come in later steps. -/
theorem next_withLogs (a : Agenda) : ∃ (event? : Option EventContent) (fault? : Option Fault),
    (∀ label, event? = some (.triggerFired label) ↔
      ∃ actions, a.announced? = some (label, actions)) ∧
      ∀ faults bus, (a.withLogs faults bus).next p m =
        (a.next p m).withLogs (fault?.toList.foldl .push faults)
          (event?.toList.foldl .emit bus) := by
  obtain ⟨duties, nesting, kept, ran, s⟩ := a
  cases duties with
  | nil => exact ⟨none, none, by simp [announced?], fun _ _ => rfl⟩
  | cons duty duties =>
    cases duty with
    | run entry stack =>
      have hunread : ∀ faults bus, watchedWrite? p (s.withLogs faults bus) stack =
          watchedWrite? p s stack :=
        fun faults bus => watchedWrite?_withUnread s _ stack
      cases hw : (if nesting < p.limits.maxCallDepth then watchedWrite? p s stack else none) with
      | some w =>
        refine ⟨none, none, by simp [announced?], fun faults bus => ?_⟩
        have hstore : (s.withLogs faults bus).store w.name w.value =
            (s.store w.name w.value).withLogs faults bus := by
          simp only [State.store]
          split <;> rfl
        simp only [next, goOn, withLogs, hunread, hw, hstore]
        rfl
      | none =>
        obtain ⟨o, ho, hstep⟩ := advance_withLogs (p := p) (m := m) entry.origin stack s
        refine ⟨o.event?, o.faultAt? m entry.origin, by simp [announced?, ho], fun faults bus => ?_⟩
        have hwlogs : (if nesting < p.limits.maxCallDepth then
            watchedWrite? p (s.withLogs faults bus) stack else none) =
            none := by rw [hunread, hw]
        rw [withLogs, next_run_of_unwatched duties kept ran hwlogs,
          next_run_of_unwatched duties kept ran hw, hstep]
        cases advance p m none entry.origin stack s with
        | running stack t => rfl
        | suspended wake stack t => exact leave_withLogs ⟨duties, nesting, kept, ran, t⟩ entry _ _ _
        | finished t => exact leave_withLogs ⟨duties, nesting, kept, ran, t⟩ entry _ _ _
    | watch name lists => cases lists <;> exact ⟨none, none, by simp [announced?], fun _ _ => rfl⟩
    | start announced lists =>
      cases lists with
      | nil => exact ⟨none, none, by simp [announced?], fun _ _ => rfl⟩
      | cons e lists =>
        cases announced with
        | false => exact ⟨none, none, by simp [announced?], fun _ _ => rfl⟩
        | true =>
          refine ⟨some (.triggerFired e.1), none, fun label => ?_, fun _ _ => rfl⟩
          obtain ⟨origin, actions⟩ := e
          simp [announced?]
    | touch t => exact ⟨none, none, by simp [announced?], fun _ _ => rfl⟩
    | key t => exact ⟨none, none, by simp [announced?], fun _ _ => rfl⟩
    | look => exact ⟨none, none, by simp [announced?], fun _ _ => rfl⟩
    | resume waiting =>
      cases waiting with
      | nil => exact ⟨none, none, by simp [announced?], fun _ _ => rfl⟩
      | cons t waiting =>
        refine ⟨none, none, by simp [announced?], fun _ _ => ?_⟩
        simp only [next, withLogs]
        split <;> rfl

/-- A step emits at most one event, which reports a trigger just when the list of the trigger
starts, and adds what it emits and records to the logs, whatever they hold. -/
theorem next_withLogs_emitted (a : Agenda) :
    (∀ faults bus, (a.withLogs faults bus).next p m =
        (a.next p m).withLogs ((a.recorded p m).foldl .push faults)
          ((a.emitted p m).foldl .emit bus)) ∧
      (a.emitted p m).length ≤ 1 ∧
      ∀ label, .triggerFired label ∈ a.emitted p m ↔
        ∃ actions, a.announced? = some (label, actions) := by
  obtain ⟨event?, fault?, hfired, hnext⟩ := a.next_withLogs (p := p) (m := m)
  have hemitted : a.emitted p m = event?.toList := by
    rw [emitted, unlogged, hnext]
    exact EventBus.entries_foldl_emit_empty event? a.state.world.bus.frame
  have hrecorded : a.recorded p m = fault?.toList := by
    rw [recorded, unlogged, hnext]
    exact BoundedLog.entries_foldl_push_empty (by decide) fault?
  rw [hemitted, hrecorded]
  refine ⟨hnext, Option.length_toList_le, fun label => ?_⟩
  rw [Option.mem_toList, hfired]

theorem logs_next (a : Agenda) :
    (a.next p m).state.world.bus = (a.emitted p m).foldl .emit a.state.world.bus ∧
    (a.next p m).state.faults = (a.recorded p m).foldl .push a.state.faults := by
  obtain ⟨hnext, -, -⟩ := a.next_withLogs_emitted (p := p) (m := m)
  have hown := hnext a.state.faults a.state.world.bus
  exact ⟨congrArg (·.state.world.bus) hown, congrArg (·.state.faults) hown⟩

theorem triggerFired_mem_emitted_iff (a : Agenda) (label : String) :
    .triggerFired label ∈ a.emitted p m ↔ ∃ actions, a.announced? = some (label, actions) :=
  a.next_withLogs_emitted.2.2 label

theorem emitted_of_announced {a : Agenda} {label : String} {actions : List Action}
    (h : a.announced? = some (label, actions)) : a.emitted p m = [.triggerFired label] := by
  have hmem : .triggerFired label ∈ a.emitted p m :=
    (a.triggerFired_mem_emitted_iff label).2 ⟨actions, h⟩
  obtain ⟨-, hlength, -⟩ := a.next_withLogs_emitted (p := p) (m := m)
  obtain ⟨event, hemitted⟩ :=
    List.length_eq_one_iff.1 (Nat.le_antisymm hlength (List.length_pos_of_mem hmem))
  rw [hemitted, List.mem_singleton] at hmem
  rw [hemitted, hmem]

end

end Agenda

/-- The variables and the game are the same, but for the events. -/
def State.SameGame (s s' : State) : Prop :=
  s'.variableValues = s.variableValues ∧ s'.world = { s.world with bus := s'.world.bus }

theorem State.emit_sameGame (s : State) (content : EventContent) : s.SameGame (s.emit content) := by
  simp only [SameGame, emit, World.emit, and_self]

theorem State.SameGame.of_eq {s s' : State} (hvalues : s'.variableValues = s.variableValues)
    (hworld : s'.world = s.world) : s.SameGame s' :=
  ⟨hvalues, by rw [hworld]⟩

section
variable {p : Program} {m : Moment}

/-- A step of a run carries out the effect that comes first, or else leaves the variables and the
game alone. -/
theorem advance_changes (origin : String) (stack : Stack) (s : State) :
    (∃ e rest isCall below, stack = .sequence (.effect e :: rest) isCall :: below ∧
        (advance p m none origin stack s).state = perform p m none origin e s) ∨
      (∀ e rest isCall below, stack ≠ .sequence (.effect e :: rest) isCall :: below) ∧
        (advance p m none origin stack s).state.variableValues = s.variableValues ∧
        (advance p m none origin stack s).state.world = s.world := by
  unfold advance
  split
  · exact .inr ⟨by simp, rfl, rfl⟩
  · exact .inr ⟨by simp, rfl, rfl⟩
  · rename_i a _ _ _
    cases a with
    | effect e => exact .inl ⟨e, _, _, _, rfl, rfl⟩
    | call name =>
      refine .inr ⟨by simp, ?_⟩
      simp only [act]
      split
      · exact ⟨rfl, rfl⟩
      · split <;> exact ⟨rfl, rfl⟩
    | _ => exact .inr ⟨by simp, rfl, rfl⟩
  · refine .inr ⟨by simp, ?_⟩
    split
    · exact ⟨rfl, rfl⟩
    · split <;> exact ⟨rfl, rfl⟩
  · refine .inr ⟨by simp, ?_⟩
    split
    · exact ⟨rfl, rfl⟩
    · split <;> exact ⟨rfl, rfl⟩

namespace Agenda

/-- The effect that comes next, if a run goes on with one. -/
def effect? (a : Agenda) : Option Effect :=
  match a.duties with
  | .run _ (.sequence (.effect e :: _) _ :: _) :: _ => some e
  | _ => none

theorem game_leave (a : Agenda) (entry : Entry) (rest : Option (Wake × Stack)) :
    (a.leave entry rest).state.variableValues = a.state.variableValues ∧
      (a.leave entry rest).state.world = a.state.world := by
  cases entry with
  | resumed t => exact ⟨rfl, rfl⟩
  | launched id origin actions => cases rest <;> exact ⟨rfl, rfl⟩

/-- A round of a run does to the game what its step does, also where watchers are to start first. -/
theorem game_goOn (a : Agenda) (entry : Entry) (stack : Stack) (duties : List Duty) :
    (a.goOn p m entry stack duties).state.variableValues =
        (advance p m none entry.origin stack a.state).state.variableValues ∧
      (a.goOn p m entry stack duties).state.world =
        (advance p m none entry.origin stack a.state).state.world := by
  rcases goOn_cases p m a entry stack duties with ⟨w, hw, hgoOn⟩ | hgoOn <;> rw [hgoOn]
  · obtain ⟨hlists, hadvance⟩ : _ ∧ advance p m none entry.origin stack a.state = _ :=
      advance_of_watchedWrite? none hw
    rw [hadvance]
    simp only [Progress.state, write, hlists, State.fault, and_self]
  · cases advance p m none entry.origin stack a.state with
    | running stack' s' => exact ⟨rfl, rfl⟩
    | suspended wake stack' s' => exact game_leave _ _ _
    | finished s' => exact game_leave _ _ _

/-- What a step does to the variables and the game: what the effect does that comes next, or at most
it reports a trigger. -/
theorem next_changes (p : Program) (m : Moment) (a : Agenda) :
    (∃ e origin, a.effect? = some e ∧
        (a.next p m).state.variableValues = (perform p m none origin e a.state).variableValues ∧
        (a.next p m).state.world = (perform p m none origin e a.state).world) ∨
      a.effect? = none ∧ (a.next p m).state.variableValues = a.state.variableValues ∧
        ((a.next p m).state.world = a.state.world ∨
          ∃ label, (a.next p m).state.world = a.state.world.emit (.triggerFired label)) := by
  obtain ⟨duties, nesting, kept, ran, s⟩ := a
  cases duties with
  | nil => exact .inr ⟨rfl, rfl, .inl rfl⟩
  | cons duty duties =>
    cases duty with
    | run entry stack =>
      obtain ⟨hvalues, hworld⟩ :=
        game_goOn (p := p) (m := m) ⟨.run entry stack :: duties, nesting, kept, ran, s⟩
          entry stack duties
      rcases advance_changes (p := p) (m := m) entry.origin stack s
        with ⟨e, rest, isCall, below, rfl, he⟩ | ⟨hother, hsameValues, hsameWorld⟩
      · exact .inl ⟨e, entry.origin, rfl, he ▸ hvalues, he ▸ hworld⟩
      · refine .inr ⟨?_, hvalues.trans hsameValues, .inl (hworld.trans hsameWorld)⟩
        unfold effect?
        split
        · rename_i hduties
          obtain ⟨hrun, -⟩ := List.cons.inj hduties
          exact absurd (Duty.run.inj hrun).2 (hother _ _ _ _)
        · rfl
    | watch name lists => cases lists <;> exact .inr ⟨rfl, rfl, .inl rfl⟩
    | start announced lists =>
      cases lists with
      | nil => exact .inr ⟨rfl, rfl, .inl rfl⟩
      | cons e lists =>
        cases announced with
        | false => exact .inr ⟨rfl, rfl, .inl rfl⟩
        | true =>
          refine .inr ⟨rfl, ?_, .inr ⟨e.1, ?_⟩⟩ <;>
            simp only [next, launch, State.takeTaskId, State.emit, if_true]
    | resume waiting =>
      cases waiting with
      | nil => exact .inr ⟨rfl, rfl, .inl rfl⟩
      | cons t waiting =>
        simp only [next]
        split <;> exact .inr ⟨rfl, rfl, .inl rfl⟩
    | _ => exact .inr ⟨rfl, rfl, .inl rfl⟩

/-- What effects keep of the variables and the game, every step keeps. -/
theorem next_keeps (Inv : State → Prop) (hsame : ∀ s s', s.SameGame s' → Inv s → Inv s')
    (hperform : ∀ origin e s, Inv s → Inv (perform p m none origin e s)) {a : Agenda}
    (ha : Inv a.state) :
    Inv (a.next p m).state := by
  rcases a.next_changes p m with
      ⟨e, origin, -, hvalues, hworld⟩ | ⟨-, hvalues, hworld | ⟨label, hworld⟩⟩
  · exact hsame _ _ (.of_eq hvalues hworld) (hperform origin e a.state ha)
  · exact hsame _ _ (.of_eq hvalues hworld) ha
  · refine hsame _ _ ⟨hvalues, ?_⟩ ha
    rw [hworld]
    rfl

end Agenda

end

/-- The work of a frame: its moment, and the course that it takes. -/
structure Record where
  moment : Moment
  agendas : List Agenda

namespace Record

def events (p : Program) (r : Record) : List EventContent :=
  r.agendas.flatMap (·.emitted p r.moment)

def faults (p : Program) (r : Record) : List Fault := r.agendas.flatMap (·.recorded p r.moment)

end Record

theorem Course.logs_eq {p : Program} {m : Moment} {a c : Agenda} {as : List Agenda}
    (h : Course p m a as c) :
    c.state.world.bus = (Record.events p ⟨m, as⟩).foldl .emit a.state.world.bus ∧
      c.state.faults = (Record.faults p ⟨m, as⟩).foldl .push a.state.faults := by
  induction h with
  | done _ => exact ⟨rfl, rfl⟩
  | @next a c as _ _ ih =>
    obtain ⟨hbus, hfaults⟩ := a.logs_next (p := p) (m := m)
    rw [hbus, hfaults] at ih
    simpa only [Record.events, Record.faults, List.flatMap_cons, List.foldl_append] using ih

namespace Engine

/-- The state of the session that an engine runs, in a game. -/
def state (e : Engine) (w : World) : State :=
  ⟨e.variableValues, e.overlay, e.waiting, e.lastTaskId, e.faults, e.random, w⟩

/-- A play with the records of its frames, that of its beginning first. -/
inductive Recorded (e : Engine) (d : Document) (w : World) : List Beat → List Record → Prop
  | start {as : List Agenda} {c : Agenda}
    (h : Course (e.programOf d) .start (Agenda.ofBegin d e.lastTaskId e.random w) as c) :
    Recorded e d w [] [⟨.start, as⟩]
  | update {beats : List Beat} {records : List Record} {as : List Agenda} {c : Agenda}
    {s : Session} (b : Beat) (hearlier : Recorded e d w beats records)
    (hs : (e.play d w beats).1.session = some s)
    (h : Course (e.programOf d) (s.moment.after (frameTime b.seconds))
    (Agenda.ofBeat (e.play d w beats) b s) as c) :
    Recorded e d w (beats ++ [b]) (records ++ [⟨s.moment.after (frameTime b.seconds), as⟩])

variable {e : Engine} {d : Document} {w : World} {beats : List Beat} {records : List Record}

theorem state_of_session {s : Session} (hs : e.session = some s) (w : World) :
    e.state w = s.state e.lastTaskId e.faults e.random w := by
  simp only [state, variableValues, overlay, waiting, hs, Session.state,
    Option.map_some, Option.getD_some, Option.bind_some]

theorem session_beat {r : Engine × World} {s : Session} (hs : r.1.session = some s) (b : Beat) :
    (beat r b).1.session = some (s.advance b.seconds (r.1.state (b.change r.2))).1 ∧
      (beat r b).1.state (beat r b).2 = (s.advance b.seconds (r.1.state (b.change r.2))).2 := by
  rw [beat_of_session hs, state_of_session hs]
  exact ⟨rfl, rfl⟩

theorem pendingCount_eq {s : Session} (hs : e.session = some s) (w : World) :
    e.pendingCount = (e.state w).pending.length := by
  simp only [pendingCount, state, waiting, hs, Option.map_some, Option.getD_some]

theorem exists_recorded (e : Engine) (d : Document) (w : World) (beats : List Beat) :
    ∃ records, e.Recorded d w beats records := by
  induction beats using List.reverseRecOn with
  | nil =>
    obtain ⟨ran, hreach⟩ := reaches_begin e.limits d e.lastTaskId e.random w
    obtain ⟨as, has⟩ := Course.exists_of_reaches hreach rfl
    exact ⟨_, .start has⟩
  | append_singleton beats b ih =>
    obtain ⟨records, hrecords⟩ := ih
    obtain ⟨s, hs, hprogram⟩ := e.exists_session_play d w beats
    obtain ⟨ran, hreach⟩ := reaches_advance s b.seconds
      (s.state (e.play d w beats).1.lastTaskId (e.play d w beats).1.faults
        (e.play d w beats).1.random (b.change (e.play d w beats).2))
    rw [hprogram] at hreach
    obtain ⟨as, has⟩ := Course.exists_of_reaches hreach rfl
    exact ⟨_, .update b hrecords hs has⟩

theorem state_of_course_begin {as : List Agenda} {c : Agenda}
    (h : Course (e.programOf d) .start (Agenda.ofBegin d e.lastTaskId e.random w) as c) :
    c.state = (e.play d w []).1.state (e.play d w []).2 := by
  obtain ⟨ran, hreach⟩ := reaches_begin e.limits d e.lastTaskId e.random w
  rw [h.eq_of_reaches hreach rfl]
  rfl

theorem state_of_course_beat {s : Session} {b : Beat} {as : List Agenda} {c : Agenda}
    (hs : (e.play d w beats).1.session = some s)
    (h : Course (e.programOf d) (s.moment.after (frameTime b.seconds))
      (Agenda.ofBeat (e.play d w beats) b s) as c) :
    c.state = (e.play d w (beats ++ [b])).1.state (e.play d w (beats ++ [b])).2 := by
  obtain ⟨s', hs', hprogram⟩ := e.exists_session_play d w beats
  obtain rfl := Option.some.inj (hs.symm.trans hs')
  obtain ⟨ran, hreach⟩ := reaches_advance s b.seconds
    (s.state (e.play d w beats).1.lastTaskId (e.play d w beats).1.faults (e.play d w beats).1.random
      (b.change (e.play d w beats).2))
  rw [hprogram] at hreach
  rw [h.eq_of_reaches hreach rfl, play_concat, beat_of_session hs]
  rfl

namespace Recorded

theorem length_eq (h : e.Recorded d w beats records) : records.length = beats.length + 1 := by
  induction h with
  | start _ => rfl
  | update b _ _ _ ih => simp [ih]

/-- The record of a frame is that of the work which the play before the frame has come to. -/
theorem exists_frame (h : e.Recorded d w beats records) {i : Nat} {r : Record}
    (hr : records[i + 1]? = some r) :
    ∃ b s c, beats[i]? = some b ∧ (e.play d w (beats.take i)).1.session = some s ∧
      r.moment = s.moment.after (frameTime b.seconds) ∧
      Course (e.programOf d) r.moment
        (Agenda.ofBeat (e.play d w (beats.take i)) b s) r.agendas c := by
  induction h with
  | start _ => simp at hr
  | @update beats records as c s b hearlier hs h ih =>
    have hlength := hearlier.length_eq
    by_cases hi : i < beats.length
    · rw [List.getElem?_append_left (by omega)] at hr
      rw [List.getElem?_append_left hi, List.take_append_of_le_length (by omega)]
      exact ih hr
    · obtain rfl : i = beats.length := by
        have hlt := (List.getElem?_eq_some_iff.1 hr).1
        simp only [List.length_append, List.length_singleton] at hlt
        omega
      rw [← hlength, List.getElem?_concat_length] at hr
      obtain rfl := Option.some.inj hr
      rw [List.getElem?_concat_length, List.take_left' rfl]
      exact ⟨b, s, c, rfl, hs, rfl, h⟩

/-- What steps keep holds all through a play, if it holds at the beginning and passes on from frame
to frame. -/
theorem forall_agendas (Inv : Agenda → Prop) (Between : State → Prop)
    (h : e.Recorded d w beats records) (hbegin : Inv (Agenda.ofBegin d e.lastTaskId e.random w))
    (hbeat : ∀ r s, r.1.session = some s → Between (r.1.state r.2) → ∀ b ∈ beats,
      Inv (Agenda.ofBeat r b s))
    (hstep : ∀ m (a : Agenda), Inv a → Inv (a.next (e.programOf d) m))
    (hend : ∀ c : Agenda, c.duties = [] → Inv c → Between c.state) :
    (∀ r ∈ records, ∀ a ∈ r.agendas, Inv a) ∧
      Between ((e.play d w beats).1.state (e.play d w beats).2) := by
  induction h with
  | start h =>
    obtain ⟨hall, hlast⟩ := h.forall_mem Inv (hstep _) hbegin
    rw [← state_of_course_begin h]
    exact ⟨List.forall_mem_singleton.2 hall, hend _ h.duties_eq_nil hlast⟩
  | update b _ hs h ih =>
    obtain ⟨hearlier, hbetween⟩ :=
      ih fun r s hs hr b hb => hbeat r s hs hr b (List.mem_append_left _ hb)
    obtain ⟨hall, hlast⟩ := h.forall_mem Inv (hstep _)
      (hbeat _ _ hs hbetween b (List.mem_append_right _ (List.mem_singleton_self b)))
    rw [← state_of_course_beat hs h]
    exact ⟨List.forall_mem_append.2 ⟨hearlier, List.forall_mem_singleton.2 hall⟩,
      hend _ h.duties_eq_nil hlast⟩

/-- What holds at the beginning of each frame, whatever came before, and is kept by steps, holds all
through a play and after it. -/
theorem forall_mem (Inv : State → Prop) (h : e.Recorded d w beats records)
    (hbegin : Inv (Agenda.ofBegin d e.lastTaskId e.random w).state)
    (hbeat : ∀ r b s, Inv (Agenda.ofBeat r b s).state)
    (hstep : ∀ m (a : Agenda), Inv a.state → Inv (a.next (e.programOf d) m).state) :
    (∀ r ∈ records, ∀ a ∈ r.agendas, Inv a.state) ∧
      Inv ((e.play d w beats).1.state (e.play d w beats).2) :=
  h.forall_agendas (fun a => Inv a.state) Inv hbegin
    (fun r s _ _ b _ => hbeat r b s) hstep fun _ _ hc => hc

/-- Every record is of a course, which begins outside of all watchers. -/
theorem exists_course (h : e.Recorded d w beats records) {r : Record} (hr : r ∈ records) :
    ∃ a c, Course (e.programOf d) r.moment a r.agendas c ∧ a.duties ≠ [] ∧ a.nesting = 0 := by
  induction h with
  | start h =>
    obtain rfl := List.mem_singleton.1 hr
    exact ⟨_, _, h, by simp [Agenda.ofBegin], rfl⟩
  | update b _ hs h ih =>
    rcases List.mem_append.1 hr with hearlier | hlast
    · exact ih hearlier
    · obtain rfl := List.mem_singleton.1 hlast
      exact ⟨_, _, h, by simp [Agenda.ofBeat, Agenda.ofAdvance, Agenda.ofTriggers], rfl⟩

theorem world_ofBegin (d : Document) (lastTaskId : Nat) (random : Random) (w : World) :
    (Agenda.ofBegin d lastTaskId random w).state.world = w :=
  List.foldlRecOn _ State.addTimer (motive := fun s : State => s.world = w) rfl fun _ h _ _ => h

theorem faults_ofBegin (d : Document) (lastTaskId : Nat) (random : Random) (w : World) :
    (Agenda.ofBegin d lastTaskId random w).state.faults = .empty :=
  List.foldlRecOn _ State.addTimer (motive := fun s : State => s.faults = .empty) rfl fun _ h _ _ =>
    h

/-- The log of faults of a session holds what was recorded in its frames. -/
theorem faults_eq (h : e.Recorded d w beats records) :
    (e.play d w beats).1.faults =
      (records.flatMap (Record.faults (e.programOf d))).foldl .push .empty := by
  induction h with
  | start h =>
    have hlog := h.logs_eq.2
    rw [state_of_course_begin h, faults_ofBegin] at hlog
    rw [List.flatMap_singleton]
    exact hlog
  | update b _ hs h ih =>
    have hlog := h.logs_eq.2
    rw [state_of_course_beat hs h] at hlog
    rw [List.flatMap_append, List.flatMap_singleton, List.foldl_append, ← ih]
    exact hlog

end Recorded

end Engine

end BlockStudio.Script
