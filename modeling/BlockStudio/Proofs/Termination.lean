import BlockStudio.Proofs.Agenda

/-!
Every duty on an agenda is done after finitely many steps. The induction is on how deep watchers may
still nest, and inside of it on the weight of the stack: each round of a run either makes the stack
lighter or starts watchers, which may nest one level less. Main statement: runs, beginnings of
sessions and frames all come to an end.
-/
namespace BlockStudio.Script

/-- The duty to go on with a run is done after some steps, with the outcome of the run. -/
def RunReaches (p : Program) (m : Moment) (nesting : Nat) (cascade : Cascade) : Prop :=
  ∀ entry stack duties kept ran s, ∃ ran',
    Reaches p m ⟨.run entry stack :: duties, nesting, kept, ran, s⟩
      (Agenda.leave ⟨duties, nesting, kept, ran', (run p m cascade entry.origin stack s).1⟩ entry
        (run p m cascade entry.origin stack s).2)

section
variable {p : Program} {m : Moment}

theorem reaches_launch {nesting : Nat} {cascade : Cascade}
    (h : RunReaches p m nesting cascade) (origin : String) (actions : List Action)
    (duties : List Duty) (kept : List Task) (ran : List Ran) (s : State) :
    ∃ ran', Reaches p m (Agenda.launch ⟨[], nesting, kept, ran, s⟩ origin actions duties)
      ⟨duties, nesting, kept, ran', launch p m cascade origin actions s⟩ := by
  obtain ⟨ran', hran⟩ :=
    h (.launched s.takeTaskId.1 origin actions) [.begin actions] duties kept ran s.takeTaskId.2
  exact ⟨_, hran⟩

theorem reaches_watch {nesting : Nat} {cascade : Cascade}
    (h : RunReaches p m (nesting + 1) cascade) (name : String) (lists : List (List Action))
    (duties : List Duty) (kept : List Task) (ran : List Ran) (s : State) :
    ∃ ran', Reaches p m ⟨.watch name lists :: duties, nesting + 1, kept, ran, s⟩
      ⟨duties, nesting, kept, ran',
        lists.foldl (fun s actions => launch p m cascade (Trigger.changeLabel name) actions s)
          s⟩ := by
  induction lists generalizing ran s with
  | nil => exact ⟨ran, .head (.refl _)⟩
  | cons actions lists ih =>
    obtain ⟨ran₁, h₁⟩ :=
      reaches_launch h (Trigger.changeLabel name) actions (.watch name lists :: duties) kept ran s
    obtain ⟨ran₂, h₂⟩ := ih ran₁ (launch p m cascade (Trigger.changeLabel name) actions s)
    exact ⟨ran₂, .head (h₁.trans h₂)⟩

theorem next_run_of_unwatched {nesting : Nat} {entry : Entry} {stack : Stack} {s : State}
    (duties : List Duty) (kept : List Task) (ran : List Ran)
    (h : (if nesting < p.limits.maxCallDepth then watchedWrite? p s stack else none) = none) :
    Agenda.next p m ⟨.run entry stack :: duties, nesting, kept, ran, s⟩ =
      match advance p m none entry.origin stack s with
      | .running stack s => ⟨.run entry stack :: duties, nesting, kept, ran, s⟩
      | .suspended wake stack s =>
        Agenda.leave ⟨duties, nesting, kept, ran, s⟩ entry (some (wake, stack))
      | .finished s => Agenda.leave ⟨duties, nesting, kept, ran, s⟩ entry none := by
  cases hadvance : advance p m none entry.origin stack s <;>
    simp only [Agenda.next, Agenda.goOn, h, hadvance]

theorem next_run_of_watched {nesting : Nat} {entry : Entry} {stack : Stack} {s : State}
    {w : WatchedWrite} (duties : List Duty) (kept : List Task) (ran : List Ran)
    (hdeep : nesting < p.limits.maxCallDepth) (h : watchedWrite? p s stack = some w) :
    Agenda.next p m ⟨.run entry stack :: duties, nesting, kept, ran, s⟩ =
      ⟨.watch w.name w.lists :: .run entry w.stack :: duties, nesting + 1, kept, ran,
        s.store w.name w.value⟩ := by
  simp only [Agenda.next, Agenda.goOn, h, if_pos hdeep]

/-- A write to a watched variable is done with all the watchers that it starts. -/
theorem reaches_write {depth nesting : Nat} {w : WatchedWrite} {entry : Entry}
    {stack : Stack} {s : State} (hwatch : RunReaches p m (nesting + 1) (cascadeOf p m depth))
    (hdeep : nesting < p.limits.maxCallDepth) (hwatched : watchedWrite? p s stack = some w)
    (duties : List Duty) (kept : List Task) (ran : List Ran) :
    ∃ ran', Reaches p m ⟨.run entry stack :: duties, nesting, kept, ran, s⟩
      ⟨.run entry w.stack :: duties, nesting, kept, ran',
        write p m (cascadeOf p m (depth + 1)) entry.origin w.name w.value s⟩ := by
  obtain ⟨hlists, -⟩ : p.watchers.get? w.name = some w.lists ∧
      advance p m none entry.origin stack s =
        .running w.stack (write p m none entry.origin w.name w.value s) :=
    advance_of_watchedWrite? none hwatched
  obtain ⟨ran', h⟩ := reaches_watch hwatch w.name w.lists (.run entry w.stack :: duties) kept ran
    (s.store w.name w.value)
  have hwrite : write p m (cascadeOf p m (depth + 1)) entry.origin w.name w.value s =
      w.lists.foldl
        (fun s actions => launch p m (cascadeOf p m depth) (Trigger.changeLabel w.name) actions s)
        (s.store w.name w.value) := by
    simp only [write, hlists, cascadeOf]
  refine ⟨ran', .head ?_⟩
  rw [next_run_of_watched duties kept ran hdeep hwatched, hwrite]
  exact h

/-- A run comes to its end. The induction is on the watchers that may still nest, and inside of it
on the weight of the stack. -/
theorem runReaches (depth nesting : Nat) (hdepth : p.limits.maxCallDepth - nesting = depth) :
    RunReaches p m nesting (cascadeOf p m depth) := by
  induction depth using Nat.strongRecOn generalizing nesting with
  | ind depth ihdepth =>
  intro entry stack duties kept ran s
  induction hweight : p.weight stack using Nat.strongRecOn generalizing stack ran s with
  | ind weight ihweight =>
  subst hweight
  cases hw : (if nesting < p.limits.maxCallDepth then watchedWrite? p s stack else none) with
  | some w =>
    obtain ⟨hdeep, hwatched⟩ : nesting < p.limits.maxCallDepth ∧
        watchedWrite? p s stack = some w := by
      split at hw
      · exact ⟨‹_›, hw⟩
      · contradiction
    obtain ⟨less, rfl⟩ : ∃ less, depth = less + 1 := ⟨depth - 1, by omega⟩
    obtain ⟨-, hadvance⟩ := advance_of_watchedWrite? (m := m) (cascadeOf p m (less + 1)) hwatched
    obtain ⟨ran₁, h₁⟩ :=
      reaches_write (ihdepth less (by omega) (nesting + 1) (by omega)) hdeep
        hwatched duties kept ran
    obtain ⟨ran₂, h₂⟩ := ihweight _ (advance_weight hadvance) w.stack ran₁ _ rfl
    refine ⟨ran₂, ?_⟩
    rw [run_of_running hadvance]
    exact h₁.trans h₂
  | none =>
    have hadvance : advance p m (cascadeOf p m depth) entry.origin stack s =
        advance p m none entry.origin stack s := by
      split at hw
      · exact advance_of_unwatched _ hw
      · obtain rfl : depth = 0 := by omega
        rfl
    have hnext := @next_run_of_unwatched p m nesting entry stack s duties kept ran hw
    rw [← hadvance] at hnext
    cases hresult : advance p m (cascadeOf p m depth) entry.origin stack s with
    | finished s' =>
      rw [hresult] at hnext
      refine ⟨ran, .head ?_⟩
      rw [hnext, run_of_finished hresult]
      exact .refl _
    | suspended wake stack' s' =>
      rw [hresult] at hnext
      refine ⟨ran, .head ?_⟩
      rw [hnext, run_of_suspended hresult]
      exact .refl _
    | running stack' s' =>
      obtain ⟨ran', h⟩ := ihweight _ (advance_weight hresult) stack' ran s' rfl
      rw [hresult] at hnext
      refine ⟨ran', .head ?_⟩
      rw [hnext, run_of_running hresult]
      exact h

theorem runReaches_zero : RunReaches p m 0 (p.cascade m) := runReaches p.limits.maxCallDepth 0 rfl

theorem reaches_start (announced : Bool) (lists : List (String × List Action)) (duties : List Duty)
    (kept : List Task) (ran : List Ran) (s : State) :
    ∃ ran', Reaches p m ⟨.start announced lists :: duties, 0, kept, ran, s⟩
      ⟨duties, 0, kept, ran', lists.foldl
        (fun s e => start p m e.1 e.2 (if announced then s.emit (.triggerFired e.1) else s))
          s⟩ := by
  induction lists generalizing ran s with
  | nil => exact ⟨ran, .head (.refl _)⟩
  | cons e lists ih =>
    obtain ⟨origin, actions⟩ := e
    obtain ⟨ran₁, h₁⟩ :=
      reaches_launch runReaches_zero origin actions (.start announced lists :: duties) kept ran
        (if announced then s.emit (.triggerFired origin) else s)
    obtain ⟨ran₂, h₂⟩ :=
      ih ran₁ (start p m origin actions (if announced then s.emit (.triggerFired origin) else s))
    exact ⟨ran₂, .head (h₁.trans h₂)⟩

theorem reaches_startAll (lists : List (String × List Action)) (duties : List Duty)
    (kept : List Task) (ran : List Ran) (s : State) :
    ∃ ran', Reaches p m ⟨.start false lists :: duties, 0, kept, ran, s⟩
      ⟨duties, 0, kept, ran', startAll p m lists s⟩ := by
  simpa [startAll] using reaches_start false lists duties kept ran s

theorem reaches_fireAll (lists : List (String × List Action)) (duties : List Duty)
    (kept : List Task) (ran : List Ran) (s : State) :
    ∃ ran', Reaches p m ⟨.start true lists :: duties, 0, kept, ran, s⟩
      ⟨duties, 0, kept, ran', fireAll p m lists s⟩ := by
  simpa [fireAll] using reaches_start true lists duties kept ran s

theorem reaches_touch (t : Table Binding) (duties : List Duty) (kept : List Task)
    (ran : List Ran) (s : State) :
    ∃ ran', Reaches p m ⟨.touch t :: duties, 0, kept, ran, s⟩
      ⟨duties, 0, kept, ran',
        fireAll p m (risen (Trigger.label ∘ .touch) s.world.touchesPlayer t) s⟩ := by
  obtain ⟨ran', h⟩ :=
    reaches_fireAll (risen (Trigger.label ∘ .touch) s.world.touchesPlayer t) duties kept ran s
  exact ⟨ran', .head h⟩

theorem reaches_key (t : Table Binding) (duties : List Duty) (kept : List Task)
    (ran : List Ran) (s : State) :
    ∃ ran', Reaches p m ⟨.key t :: duties, 0, kept, ran, s⟩
      ⟨duties, 0, kept, ran',
        fireAll p m (risen (Trigger.label ∘ .key) s.world.isKeyDown t) s⟩ := by
  obtain ⟨ran', h⟩ :=
    reaches_fireAll (risen (Trigger.label ∘ .key) s.world.isKeyDown t) duties kept ran s
  exact ⟨ran', .head h⟩

theorem reaches_resume (waiting : List Task) (duties : List Duty) (kept : List Task)
    (ran : List Ran) (s : State) :
    ∃ ran', Reaches p m ⟨.resume waiting :: duties, 0, kept, ran, s⟩
      ⟨.resume [] :: duties, 0, (resumeTasks p m kept waiting s).1, ran',
        (resumeTasks p m kept waiting s).2⟩ := by
  induction waiting generalizing kept ran s with
  | nil => exact ⟨ran, .refl _⟩
  | cons t waiting ih =>
    by_cases hdue : t.wake.isDue m = true
    · obtain ⟨ran₁, h₁⟩ :=
        runReaches_zero (.resumed t) t.stack (.resume waiting :: duties) kept ran s
      have hnext : Agenda.next p m ⟨.resume (t :: waiting) :: duties, 0, kept, ran, s⟩ =
          ⟨.run (.resumed t) t.stack :: .resume waiting :: duties, 0, kept, ran, s⟩ := by
        simp only [Agenda.next, if_pos hdue]
      have htask : resumeTask p m kept t s =
          (kept ++
            (Ran.mk (.resumed t) (run p m (p.cascade m) t.origin t.stack s).2).waiting?.toList,
            (run p m (p.cascade m) t.origin t.stack s).1) := by
        simp only [resumeTask, if_pos hdue]
        cases (run p m (p.cascade m) t.origin t.stack s).2 with
        | none => simp [Ran.waiting?]
        | some rest => rfl
      obtain ⟨ran₂, h₂⟩ := ih (resumeTask p m kept t s).1
        (ran₁ ++ [⟨.resumed t, (run p m (p.cascade m) t.origin t.stack s).2⟩])
          (resumeTask p m kept t s).2
      refine ⟨ran₂, .head ?_⟩
      rw [hnext]
      refine h₁.trans ?_
      rw [htask] at h₂
      simp only [resumeTasks, htask]
      exact h₂
    · obtain ⟨ran', h⟩ := ih (kept ++ [t]) ran s
      refine ⟨ran', .head ?_⟩
      simp only [Agenda.next, resumeTasks, resumeTask, if_neg hdue]
      exact h

theorem reaches_pass (duties : List Duty) (ran : List Ran) (s : State) :
    ∃ ran', Reaches p m ⟨.resume s.pending :: duties, 0, [], ran, { s with pending := [] }⟩
      ⟨duties, 0, [], ran', resumeDue p m s⟩ := by
  obtain ⟨ran', h⟩ := reaches_resume s.pending duties [] ran { s with pending := [] }
  exact ⟨ran', h.trans (.head (.refl _))⟩

theorem reaches_look (duties : List Duty) (ran : List Ran) (s : State) :
    ∃ ran', Reaches p m ⟨.look :: duties, 0, [], ran, s⟩ ⟨duties, 0, [], ran',
      resumeDue p m s⟩ := by
  obtain ⟨ran', h⟩ := reaches_pass duties ran s
  exact ⟨ran', .head h⟩

end

/-- The state in which a frame comes to the touches. -/
def Session.beforeTouches (s : Session) (dt : Float) (st : State) : State :=
  let st := (st.ageOverlay (frameTime dt)).mirrorScore
  fireAll s.program (s.moment.after (frameTime dt)) (fireScores st.world.score s.scores).1 st

/-- The state in which a frame comes to the keys. -/
def Session.beforeKeys (s : Session) (dt : Float) (st : State) : State :=
  let st := s.beforeTouches dt st
  fireAll s.program (s.moment.after (frameTime dt))
    (risen (Trigger.label ∘ .touch) st.world.touchesPlayer s.touches) st

/-- The state in which a frame comes to look at the waiting tasks. -/
def Session.beforeLook (s : Session) (dt : Float) (st : State) : State :=
  let m := s.moment.after (frameTime dt)
  let st := (st.ageOverlay (frameTime dt)).mirrorScore
  let st := fireAll s.program m (fireScores st.world.score s.scores).1 st
  let st := fireAll s.program m (risen (Trigger.label ∘ .touch) st.world.touchesPlayer s.touches) st
  fireAll s.program m (risen (Trigger.label ∘ .key) st.world.isKeyDown s.keys) st

theorem Session.advance_eq_resumeDue (s : Session) (dt : Float) (st : State) :
    (s.advance dt st).2 = resumeDue s.program (s.moment.after (frameTime dt))
      (s.beforeLook dt st) := rfl

/-- The session after a frame, by the states at which the frame looks at the touches and the
keys. -/
theorem Session.advance_fst (s : Session) (dt : Float) (st : State) :
    (s.advance dt st).1 =
      { program := s.program
        moment := s.moment.after (frameTime dt)
        touches := sense (s.beforeTouches dt st).world.touchesPlayer s.touches
        keys := sense (s.beforeKeys dt st).world.isKeyDown s.keys
        scores := (fireScores (st.ageOverlay (frameTime dt)).mirrorScore.world.score s.scores).2
        variableValues := (s.advance dt st).2.variableValues
        overlay := (s.advance dt st).2.overlay
        pending := (s.advance dt st).2.pending } := rfl

theorem reaches_beforeLook (s : Session) (dt : Float) (st : State) (duties : List Duty) :
    ∃ ran, Reaches s.program (s.moment.after (frameTime dt)) (Agenda.ofTriggers s dt st duties)
      ⟨duties, 0, [], ran, s.beforeLook dt st⟩ := by
  obtain ⟨ran₁, h₁⟩ := reaches_fireAll _ (.touch s.touches :: .key s.keys :: duties) [] [] _
  obtain ⟨ran₂, h₂⟩ := reaches_touch s.touches (.key s.keys :: duties) [] ran₁ _
  obtain ⟨ran₃, h₃⟩ := reaches_key s.keys duties [] ran₂ _
  exact ⟨ran₃, (h₁.trans h₂).trans h₃⟩

theorem reaches_advance (s : Session) (dt : Float) (st : State) :
    ∃ ran, Reaches s.program (s.moment.after (frameTime dt)) (Agenda.ofAdvance s dt st)
      ⟨[], 0, [], ran, (s.advance dt st).2⟩ := by
  obtain ⟨ran₁, h₁⟩ := reaches_beforeLook s dt st [.look]
  obtain ⟨ran₂, h₂⟩ := reaches_look [] ran₁ (s.beforeLook dt st)
  exact ⟨ran₂, h₁.trans h₂⟩

theorem reaches_begin (limits : Limits) (d : Document) (lastTaskId : Nat)
    (random : Random) (world : World) :
    ∃ ran, Reaches (.ofHandlers limits (Handler.ofDocument d)) .start
      (Agenda.ofBegin d lastTaskId random world)
      ⟨[], 0, [], ran, (Session.begin limits d lastTaskId random world).2⟩ :=
  reaches_startAll _ [] [] [] _

/-- A run of any stack, in any state and however deep in watchers, ends after finitely many steps,
the runs inside of it included: it finishes or is suspended, as `run` says. So does the beginning of
a session with any document, and every frame of every session. -/
theorem work_terminates :
    (∀ (p : Program) (m : Moment) (nesting : Nat) (entry : Entry) (stack : Stack)
      (kept : List Task) (s : State),
      let (s', rest) :=
        run p m (cascadeOf p m (p.limits.maxCallDepth - nesting)) entry.origin stack s
      ∃ n ran, (Agenda.next p m)^[n] ⟨[.run entry stack], nesting, kept, [], s⟩ =
        Agenda.leave ⟨[], nesting, kept, ran, s'⟩ entry rest) ∧
    (∀ (limits : Limits) (d : Document) (lastTaskId : Nat) (random : Random) (world : World),
      ∃ n ran, (Agenda.next (.ofHandlers limits (Handler.ofDocument d)) .start)^[n]
          (Agenda.ofBegin d lastTaskId random world) =
        ⟨[], 0, [], ran, (Session.begin limits d lastTaskId random world).2⟩) ∧
    ∀ (s : Session) (dt : Float) (st : State),
      ∃ n ran, (Agenda.next s.program (s.moment.after (frameTime dt)))^[n]
        (Agenda.ofAdvance s dt st) =
        ⟨[], 0, [], ran, (s.advance dt st).2⟩ := by
  refine ⟨?_, ?_, ?_⟩
  · intro p m nesting entry stack kept s
    obtain ⟨ran, n, h⟩ :=
      runReaches (p.limits.maxCallDepth - nesting) nesting rfl entry stack [] kept [] s
    exact ⟨n, ran, h⟩
  · intro limits d lastTaskId random world
    obtain ⟨ran, n, h⟩ := reaches_begin limits d lastTaskId random world
    exact ⟨n, ran, h⟩
  · intro s dt st
    obtain ⟨ran, n, h⟩ := reaches_advance s dt st
    exact ⟨n, ran, h⟩

end BlockStudio.Script
