import BlockStudio.Script.Session
import Mathlib.Logic.Function.Iterate

/-!
The work of a frame as one flat machine. What is still to be done stands on an agenda, and a step
does a small, bounded part of its first duty; nothing in a step runs a task to its end. A write to a
watched variable puts the watchers in front of the run that wrote, so the agenda is the nesting of
all runs. Main statements: each duty is done after finitely many steps, and leaves the state that
`run`, `startAll`, `fireAll` and `resumeDue` give.
-/
namespace BlockStudio.Script

/-- How a run begins: a waiting task goes on, or a new task starts on a list. -/
inductive Entry where
  | resumed (t : Task)
  | launched (id : Nat) (origin : String) (actions : List Action)

namespace Entry

def id : Entry → Nat
  | .resumed t => t.id
  | .launched id _ _ => id

def origin : Entry → String
  | .resumed t => t.origin
  | .launched _ origin _ => origin

end Entry

/-- A run that is over. Without a rest the task is finished. -/
structure Ran where
  entry : Entry
  rest : Option (Wake × Stack)

def Ran.waiting? (r : Ran) : Option Task :=
  r.rest.map fun (wake, stack) => ⟨r.entry.id, r.entry.origin, stack, wake⟩

inductive Duty where
  /-- Go on with a run, of which `stack` remains. -/
  | run (entry : Entry) (stack : Stack)
  /-- Start the watchers of a variable that was written. -/
  | watch (name : String) (lists : List (List Action))
  /-- Start the lists of triggers, each `announced` by an event or not. -/
  | start (announced : Bool) (lists : List (String × List Action))
  /-- Fire the bindings of objects that the player has come to touch. -/
  | touch (t : Table Binding)
  /-- Fire the bindings of keys that have gone down. -/
  | key (t : Table Binding)
  /-- Take the waiting tasks away and look at each of them. -/
  | look
  /-- Look at waiting tasks that were taken away. -/
  | resume (waiting : List Task)

structure Agenda where
  duties : List Duty
  /-- How deep watchers are nested. -/
  nesting : Nat
  /-- The tasks that the look at the waiting tasks has put back. -/
  kept : List Task
  /-- The runs that are over, in the order in which they ended. -/
  ran : List Ran
  state : State

/-- The variable that an effect writes, with its new value. -/
def Effect.write? (s : State) : Effect → Option (String × Float)
  | .setVariable name value => if name.isEmpty then none else some (name, value)
  | .changeVariable name delta => if name.isEmpty then none else some (name, s.read name + delta)
  | _ => none

/-- A write to a watched variable that comes next in a run. -/
structure WatchedWrite where
  name : String
  value : Float
  lists : List (List Action)
  /-- The stack after the write. -/
  stack : Stack

def watchedWrite? (p : Program) (s : State) : Stack → Option WatchedWrite
  | .sequence (.effect e :: rest) isCall :: below => do
    let (name, value) ← e.write? s
    let lists ← p.watchers.get? name
    some ⟨name, value, lists, .sequence rest isCall :: below⟩
  | _ => none

namespace Agenda

def launch (a : Agenda) (origin : String) (actions : List Action) (duties : List Duty) : Agenda :=
  let (id, s) := a.state.takeTaskId
  { a with duties := .run (.launched id origin actions) [.begin actions] :: duties, state := s }

/-- Ends a run. A task that goes on waiting is put back by the look that resumed it; a new one joins
the others. -/
def leave (a : Agenda) (entry : Entry) (rest : Option (Wake × Stack)) : Agenda :=
  match entry with
  | .resumed _ =>
    { a with
      kept := a.kept ++ (Ran.mk entry rest).waiting?.toList
      ran := a.ran ++ [⟨entry, rest⟩] }
  | .launched id origin _ =>
    { a with state := a.state.keep id origin rest, ran := a.ran ++ [⟨entry, rest⟩] }

/-- One round of a run. Watchers are put in front of the run, unless they are nested too deep. -/
def goOn (p : Program) (m : Moment) (a : Agenda) (entry : Entry) (stack : Stack)
    (duties : List Duty) : Agenda :=
  match if a.nesting < p.limits.maxCallDepth then watchedWrite? p a.state stack else none with
  | some w =>
    { a with
      duties := .watch w.name w.lists :: .run entry w.stack :: duties
      nesting := a.nesting + 1
      state := a.state.store w.name w.value }
  | none =>
    match Script.advance p m none entry.origin stack a.state with
    | .running stack s => { a with duties := .run entry stack :: duties, state := s }
    | .suspended wake stack s => { a with duties, state := s }.leave entry (some (wake, stack))
    | .finished s => { a with duties, state := s }.leave entry none

def next (p : Program) (m : Moment) (a : Agenda) : Agenda :=
  match a.duties with
  | [] => a
  | .run entry stack :: duties => a.goOn p m entry stack duties
  | .watch _ [] :: duties => { a with duties, nesting := a.nesting - 1 }
  | .watch name (actions :: lists) :: duties =>
    a.launch (Trigger.changeLabel name) actions (.watch name lists :: duties)
  | .start _ [] :: duties => { a with duties }
  | .start announced ((origin, actions) :: lists) :: duties =>
    let s := if announced then a.state.emit (.triggerFired origin) else a.state
    { a with state := s }.launch origin actions (.start announced lists :: duties)
  | .touch t :: duties =>
    { a with
      duties :=
        .start true (risen (Trigger.label ∘ .touch) a.state.world.touchesPlayer t) :: duties }
  | .key t :: duties =>
    { a with
      duties := .start true (risen (Trigger.label ∘ .key) a.state.world.isKeyDown t) :: duties }
  | .look :: duties =>
    { a with duties := .resume a.state.pending :: duties, state := { a.state with pending := [] } }
  | .resume [] :: duties =>
    { a with
      duties
      kept := []
      state := { a.state with
        pending := (a.kept ++ a.state.pending).mergeSort fun t u => t.id ≤ u.id } }
  | .resume (t :: waiting) :: duties =>
    if t.wake.isDue m then
      { a with duties := .run (.resumed t) t.stack :: .resume waiting :: duties }
    else { a with duties := .resume waiting :: duties, kept := a.kept ++ [t] }

/-- What the beginning of a session has to do once the handlers are registered and the timers set
up. -/
def ofBegin (d : Document) (lastTaskId : Nat) (random : Random) (world : World) : Agenda :=
  let hs := Handler.ofDocument d
  let st : State :=
    ⟨.ofList (d.variableNames.map (·, 0)), none, [], lastTaskId, .empty, random, world⟩
  let st := (hs.filterMap Handler.timer?).foldl State.addTimer st.mirrorScore
  ⟨[.start false (hs.filterMap Handler.start?)], 0, [], [], st⟩

/-- What the triggers of a frame have to do once the clock, the message and the score are up to
date. -/
def ofTriggers (s : Session) (dt : Float) (st : State) (duties : List Duty) : Agenda :=
  let st := (st.ageOverlay (frameTime dt)).mirrorScore
  ⟨.start true (fireScores st.world.score s.scores).1 :: .touch s.touches :: .key s.keys ::
    duties, 0, [], [], st⟩

def ofAdvance (s : Session) (dt : Float) (st : State) : Agenda := ofTriggers s dt st [.look]

end Agenda

@[simp] theorem State.lastTaskId_emit (s : State) (content : EventContent) :
    (s.emit content).lastTaskId = s.lastTaskId := by
  simp only [State.emit]

namespace Agenda
variable (p : Program) (m : Moment) {a : Agenda}

theorem duties_leave (a : Agenda) (entry : Entry) (rest : Option (Wake × Stack)) :
    (a.leave entry rest).duties = a.duties := by
  cases entry <;> rfl

/-- What a round of a run leaves on the agenda. -/
theorem goOn_cases (a : Agenda) (entry : Entry) (stack : Stack) (duties : List Duty) :
    (∃ w : WatchedWrite, watchedWrite? p a.state stack = some w ∧
        a.goOn p m entry stack duties =
          { a with
            duties := .watch w.name w.lists :: .run entry w.stack :: duties
            nesting := a.nesting + 1
            state := a.state.store w.name w.value }) ∨
      a.goOn p m entry stack duties =
        match Script.advance p m none entry.origin stack a.state with
        | .running stack s => { a with duties := .run entry stack :: duties, state := s }
        | .suspended wake stack s => { a with duties, state := s }.leave entry (some (wake, stack))
        | .finished s => { a with duties, state := s }.leave entry none := by
  unfold goOn
  split
  · rename_i w hw
    split at hw
    · exact .inl ⟨w, hw, rfl⟩
    · contradiction
  · exact .inr rfl

/-- What a step puts in the place of the first duty. -/
inductive Becomes (m : Moment) (s : State) : Duty → List Duty → Prop
  | over (entry : Entry) (stack : Stack) : Becomes m s (.run entry stack) []
  | goesOn (entry : Entry)
    (stack stack' : Stack) : Becomes m s (.run entry stack) [.run entry stack']
  | watched (entry : Entry) (stack stack' : Stack) (name : String) (lists : List (List Action)) :
    Becomes m s (.run entry stack) [.watch name lists, .run entry stack']
  | watchersOver (name : String) : Becomes m s (.watch name []) []
  | watcher (name : String) (actions : List Action) (lists : List (List Action)) :
    Becomes m s (.watch name (actions :: lists))
      [.run (.launched s.takeTaskId.1 (Trigger.changeLabel name) actions) [.begin actions],
        .watch name lists]
  | startsOver (announced : Bool) : Becomes m s (.start announced []) []
  | start (announced : Bool) (origin : String) (actions : List Action)
    (lists : List (String × List Action)) :
    Becomes m s (.start announced ((origin, actions) :: lists))
      [.run (.launched s.takeTaskId.1 origin actions) [.begin actions], .start announced lists]
  | touch (t : Table Binding) :
    Becomes m s (.touch t) [.start true (risen (Trigger.label ∘ .touch) s.world.touchesPlayer t)]
  | key (t : Table Binding) :
    Becomes m s (.key t) [.start true (risen (Trigger.label ∘ .key) s.world.isKeyDown t)]
  | look : Becomes m s .look [.resume s.pending]
  | resumesOver : Becomes m s (.resume []) []
  | due {t : Task} (waiting : List Task) (hdue : t.wake.isDue m = true) :
    Becomes m s (.resume (t :: waiting)) [.run (.resumed t) t.stack, .resume waiting]
  | notDue {t : Task} (waiting : List Task) (hdue : t.wake.isDue m = false) :
    Becomes m s (.resume (t :: waiting)) [.resume waiting]

/-- A step leaves the duties behind the first where they are. -/
theorem exists_becomes {duty : Duty} {duties : List Duty} (h : a.duties = duty :: duties) :
    ∃ new, Becomes m a.state duty new ∧ (a.next p m).duties = new ++ duties := by
  obtain ⟨_, nesting, kept, ran, s⟩ := a
  subst h
  cases duty with
  | run entry stack =>
    rcases goOn_cases p m ⟨.run entry stack :: duties, nesting, kept, ran, s⟩ entry stack duties
      with ⟨w, -, hgoOn⟩ | hgoOn
    · exact ⟨_, .watched entry stack w.stack w.name w.lists, congrArg Agenda.duties hgoOn⟩
    · simp only [next, hgoOn]
      cases Script.advance p m none entry.origin stack s with
      | running stack' s => exact ⟨_, .goesOn entry stack stack', rfl⟩
      | suspended wake stack' s => exact ⟨_, .over entry stack, duties_leave _ _ _⟩
      | finished s => exact ⟨_, .over entry stack, duties_leave _ _ _⟩
  | watch name lists =>
    cases lists with
    | nil => exact ⟨_, .watchersOver name, rfl⟩
    | cons actions lists => exact ⟨_, .watcher name actions lists, rfl⟩
  | start announced lists =>
    cases lists with
    | nil => exact ⟨_, .startsOver announced, rfl⟩
    | cons e lists =>
      obtain ⟨origin, actions⟩ := e
      refine ⟨_, .start announced origin actions lists, ?_⟩
      cases announced with
      | false => rfl
      | true => simp [next, launch, State.takeTaskId]
  | touch t => exact ⟨_, .touch t, rfl⟩
  | key t => exact ⟨_, .key t, rfl⟩
  | look => exact ⟨_, .look, rfl⟩
  | resume waiting =>
    cases waiting with
    | nil => exact ⟨_, .resumesOver, rfl⟩
    | cons t waiting =>
      cases hdue : t.wake.isDue m with
      | true => exact ⟨_, .due waiting hdue, by simp [next, hdue]⟩
      | false => exact ⟨_, .notDue waiting hdue, by simp [next, hdue]⟩

theorem mem_duties_next {first duty : Duty} {duties : List Duty} (h : a.duties = first :: duties)
    (hduty : duty ∈ duties) : duty ∈ (a.next p m).duties := by
  obtain ⟨new, -, hnext⟩ := a.exists_becomes p m h
  rw [hnext]
  exact List.mem_append_right _ hduty

/-- What holds of all duties holds of them after a step, if it passes on to the duties that the
first one becomes. -/
theorem forall_duties_next {P : Duty → Prop}
    (hbecomes : ∀ duty new, Becomes m a.state duty new → P duty → ∀ d ∈ new, P d)
    (h : ∀ duty ∈ a.duties, P duty) :
    ∀ duty ∈ (a.next p m).duties, P duty := by
  cases hduties : a.duties with
  | nil => rwa [next, hduties]
  | cons duty duties =>
    obtain ⟨new, hnew, hnext⟩ := a.exists_becomes p m hduties
    rw [hduties, List.forall_mem_cons] at h
    rw [hnext, List.forall_mem_append]
    exact ⟨hbecomes duty new hnew h.1, h.2⟩

/-- No step adds a duty to look. -/
theorem look_notMem_next (h : .look ∉ a.duties) : .look ∉ (a.next p m).duties := by
  have hother : ∀ duty ∈ (a.next p m).duties, duty ≠ .look := by
    refine a.forall_duties_next p m (fun duty new hnew hduty => ?_) (List.forall_mem_ne'.2 h)
    cases hnew with
    | look => contradiction
    | _ => simp
  exact fun hlook => hother _ hlook rfl

end Agenda

def Reaches (p : Program) (m : Moment) (a b : Agenda) : Prop := ∃ n, (Agenda.next p m)^[n] a = b

namespace Reaches
variable {p : Program} {m : Moment} {a b c : Agenda}

theorem refl (a : Agenda) : Reaches p m a a := ⟨0, rfl⟩

theorem trans (h : Reaches p m a b) (g : Reaches p m b c) : Reaches p m a c := by
  obtain ⟨n, rfl⟩ := h
  obtain ⟨k, rfl⟩ := g
  exact ⟨k + n, Function.iterate_add_apply _ k n a⟩

theorem head (h : Reaches p m (a.next p m) b) : Reaches p m a b := by
  obtain ⟨n, rfl⟩ := h
  exact ⟨n + 1, Function.iterate_succ_apply _ n a⟩

end Reaches

section
variable {p : Program} {m : Moment} {origin : String} {s : State}

theorem perform_of_write? (cascade : Cascade) {e : Effect} {name : String} {value : Float}
    (h : e.write? s = some (name, value)) :
    perform p m cascade origin e s = write p m cascade origin name value s := by
  cases e <;> simp only [Effect.write?] at h <;> try contradiction
  all_goals
    split at h
    · contradiction
    · rename_i hname
      cases h
      simp only [perform]
      rw [if_neg hname]

theorem perform_of_write?_none (cascade : Cascade) {e : Effect} (h : e.write? s = none) :
    perform p m cascade origin e s = perform p m none origin e s := by
  cases e <;> simp only [Effect.write?] at h <;> try rfl
  all_goals
    split at h
    · rename_i hname
      simp only [perform]
      rw [if_pos hname, if_pos hname]
    · contradiction

theorem write_of_unwatched (cascade : Cascade) {name : String} (value : Float)
    (h : p.watchers.get? name = none) :
    write p m cascade origin name value s = write p m none origin name value s := by
  simp only [write, h]

theorem perform_of_unwatched (cascade : Cascade) {e : Effect}
    (h : ∀ name value, e.write? s = some (name, value) → p.watchers.get? name = none) :
    perform p m cascade origin e s = perform p m none origin e s := by
  cases hw : e.write? s with
  | none => exact perform_of_write?_none cascade hw
  | some w =>
    obtain ⟨name, value⟩ := w
    rw [perform_of_write? cascade hw, perform_of_write? none hw,
      write_of_unwatched cascade value (h name value hw)]

theorem advance_of_watchedWrite? (cascade : Cascade) {stack : Stack} {w : WatchedWrite}
    (h : watchedWrite? p s stack = some w) :
    p.watchers.get? w.name = some w.lists ∧
      advance p m cascade origin stack s =
        .running w.stack (write p m cascade origin w.name w.value s) := by
  unfold watchedWrite? at h
  split at h
  · rename_i e rest isCall below
    simp only [Option.bind_eq_bind, Option.bind_eq_some_iff, Option.some.injEq] at h
    obtain ⟨⟨name, value⟩, hwrite, lists, hlists, rfl⟩ := h
    refine ⟨hlists, ?_⟩
    simp only [advance, act, perform_of_write? cascade hwrite]
  · contradiction

theorem advance_of_unwatched (cascade : Cascade) {stack : Stack}
    (h : watchedWrite? p s stack = none) :
    advance p m cascade origin stack s = advance p m none origin stack s := by
  unfold watchedWrite? at h
  split at h
  · rename_i e rest isCall below
    have hperform : perform p m cascade origin e s = perform p m none origin e s := by
      apply perform_of_unwatched
      intro name value hwrite
      cases hlists : p.watchers.get? name with
      | none => rfl
      | some lists => simp [hwrite, hlists] at h
    simp only [advance, act, hperform]
  · rename_i hstack
    unfold advance
    split <;> try rfl
    rename_i a rest isCall below
    cases a <;> first | rfl | exact absurd rfl (hstack _ _ _ _)

end

end BlockStudio.Script
