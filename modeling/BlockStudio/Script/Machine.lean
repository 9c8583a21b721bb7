import BlockStudio.Script.Weight

/-!
The machine that runs tasks. `advance` takes one step with the innermost frame of a stack; `run`
takes steps until the stack is done or has to wait. Every step makes the stack lighter, so a run
ends whatever the script does. A write to a watched variable runs the watchers at once, nested up to
the call depth limit.
-/
namespace BlockStudio.Script

inductive Progress where
  | finished (s : State)
  | suspended (wake : Wake) (stack : Stack) (s : State)
  | running (stack : Stack) (s : State)

/-- The frame of a branch or a body that has just begun. -/
def Frame.begin (actions : List Action) : Frame := .sequence actions false

/-- The step that an action takes; `here` is the stack without the action. -/
def act (p : Program) (m : Moment) (cascade : Cascade) (origin : String) (a : Action)
    (here : Stack) (s : State) : Progress :=
  match a with
  | .effect e => .running here (perform p m cascade origin e s)
  | .wait seconds => .suspended (.atTime (m.seconds + seconds)) here s
  | .call name =>
    match p.functions.get? name with
    | none => .running here s
    | some body =>
      if callDepth here < p.limits.maxCallDepth then .running (.sequence body true :: here) s
      else .running here
        (s.fault m origin .callFunc ("call depth limit reached calling '" ++ name ++ "'"))
  | .whenTrue c body => .running (if s.holds c then .begin body :: here else here) s
  | .choose c body otherwise => .running (.begin (if s.holds c then body else otherwise) :: here) s
  | .chance percent body =>
    let hit := s.random.sample < percent / 100
    .running (if hit then .begin body :: here else here) { s with random := s.random.next }
  | .repeatTimes times body =>
    .running (.counted body (min times p.limits.loopCeiling) 0 0 :: here) s
  | .repeatWhile c body => .running (.conditional c body 0 0 :: here) s

/-- One step with the innermost frame. -/
def advance (p : Program) (m : Moment) (cascade : Cascade) (origin : String) (stack : Stack)
    (s : State) : Progress :=
  match stack with
  | [] => .finished s
  | .sequence [] _ :: below => .running below s
  | .sequence (a :: rest) isCall :: below =>
    act p m cascade origin a (.sequence rest isCall :: below) s
  | .counted body times done yieldedAt :: below =>
    if times ≤ done then .running below s
    else if Limits.yieldsAt p.limits.loopYieldInterval done yieldedAt then
      .suspended (.atFrame (Number.countUp m.frame 1)) (.counted body times done done :: below) s
    else .running (.begin body :: .counted body times (done + 1) yieldedAt :: below) s
  | .conditional c body done yieldedAt :: below =>
    if p.limits.loopCeiling ≤ done || !s.holds c then .running below s
    else if Limits.yieldsAt p.limits.loopYieldInterval done yieldedAt then
      .suspended (.atFrame (Number.countUp m.frame 1)) (.conditional c body done done :: below) s
    else .running (.begin body :: .conditional c body (done + 1) yieldedAt :: below) s

/-- An action is heavier than the frames that it pushes. -/
theorem act_weight {p : Program} {m : Moment} {cascade : Cascade} {origin : String} {a : Action}
    {rest : List Action} {isCall : Bool} {below stack : Stack} {s s' : State}
    (h : act p m cascade origin a (.sequence rest isCall :: below) s = .running stack s') :
    p.weight stack < p.weight (.sequence (a :: rest) isCall :: below) := by
  have hcall : p.callWeightIn (.sequence (a :: rest) isCall :: below)
      = p.callWeightIn (.sequence rest isCall :: below) := callWeightIn_congr p below rfl
  cases a with
  | effect e =>
    cases h
    simp only [Program.weight, Frame.weight, listWeight, Action.weight, hcall]
    omega
  | wait seconds => cases h
  | call name =>
    simp only [act] at h
    split at h
    · cases h
      simp only [Program.weight, Frame.weight, listWeight, Action.weight, hcall]
      omega
    · rename_i body hbody
      split at h
      · rename_i hdepth
        cases h
        obtain ⟨budget, hb⟩ : ∃ budget,
            p.limits.maxCallDepth - callDepth (.sequence rest isCall :: below) = budget + 1 :=
          ⟨p.limits.maxCallDepth - callDepth (.sequence rest isCall :: below) - 1, by omega⟩
        have hin : p.callWeightIn (.sequence rest isCall :: below) = p.callWeight (budget + 1) := by
          simp only [Program.callWeightIn, hb]
        have hnew : p.callWeightIn (.sequence body true :: .sequence rest isCall :: below)
            = p.callWeight budget := by
          simp only [Program.callWeightIn]
          rw [callDepth_cons]
          simp only [Frame.isCall, if_true]
          congr 1
          omega
        have hle := body_le_callWeight p budget hbody
        simp only [Program.weight, Frame.weight, listWeight, Action.weight, hcall, hin, hnew]
        omega
      · cases h
        simp only [Program.weight, Frame.weight, listWeight, Action.weight, hcall]
        omega
  | whenTrue c body =>
    simp only [act] at h
    cases h
    split
    · simp only [Program.weight, Frame.begin, Frame.weight, listWeight, Action.weight, hcall,
        callWeightIn_cons_of_not_call p (f := .sequence body false) _ rfl]
      omega
    · simp only [Program.weight, Frame.weight, listWeight, Action.weight, hcall]
      omega
  | choose c body otherwise =>
    simp only [act] at h
    cases h
    split <;>
    · simp only [Program.weight, Frame.begin, Frame.weight, listWeight, Action.weight, hcall,
        callWeightIn_cons_of_not_call p (f := .sequence _ false) _ rfl]
      omega
  | chance percent body =>
    simp only [act] at h
    cases h
    split
    · simp only [Program.weight, Frame.begin, Frame.weight, listWeight, Action.weight, hcall,
        callWeightIn_cons_of_not_call p (f := .sequence body false) _ rfl]
      omega
    · simp only [Program.weight, Frame.weight, listWeight, Action.weight, hcall]
      omega
  | repeatTimes times body =>
    cases h
    simp only [Program.weight, Frame.weight, listWeight, Action.weight, hcall, Nat.sub_zero,
      callWeightIn_cons_of_not_call p (f := .counted body _ 0 0) _ rfl]
    have := Nat.mul_le_mul_right (2 + listWeight p.limits.loopCeiling
      (p.callWeightIn (.sequence rest isCall :: below)) body)
        (Nat.min_le_left times p.limits.loopCeiling)
    omega
  | repeatWhile c body =>
    cases h
    simp only [Program.weight, Frame.weight, listWeight, Action.weight, hcall, Nat.sub_zero,
      callWeightIn_cons_of_not_call p (f := .conditional c body 0 0) _ rfl]
    omega

/-- Every step makes the stack lighter. -/
theorem advance_weight {p : Program} {m : Moment} {cascade : Cascade} {origin : String}
    {stack stack' : Stack} {s s' : State}
    (h : advance p m cascade origin stack s = .running stack' s') :
    p.weight stack' < p.weight stack := by
  unfold advance at h
  split at h
  · cases h
  · cases h
    simp only [Program.weight, Frame.weight, listWeight]
    omega
  · exact act_weight h
  · split at h
    · cases h
      simp only [Program.weight, Frame.weight]
      omega
    · rename_i body times done yieldedAt below hlt
      split at h
      · cases h
      · cases h
        have hround := round_lt (w := listWeight p.limits.loopCeiling (p.callWeightIn below) body)
          (Nat.lt_of_not_le hlt)
        simp only [Program.weight, Frame.begin, Frame.weight,
          callWeightIn_cons_of_not_call p (f := .sequence body false) _ rfl,
          callWeightIn_cons_of_not_call p (f := .counted body _ _ _) _ rfl]
        omega
  · split at h
    · cases h
      simp only [Program.weight, Frame.weight]
      omega
    · rename_i c body done yieldedAt below hgo
      split at h
      · cases h
      · cases h
        have hlt : done < p.limits.loopCeiling := by
          simp only [Bool.or_eq_true, decide_eq_true_eq, not_or] at hgo
          omega
        have hround :=
          round_lt (w := listWeight p.limits.loopCeiling (p.callWeightIn below) body) hlt
        simp only [Program.weight, Frame.begin, Frame.weight,
          callWeightIn_cons_of_not_call p (f := .sequence body false) _ rfl,
          callWeightIn_cons_of_not_call p (f := .conditional c body _ _) _ rfl]
        omega

/-- Takes steps until the stack is done, which gives none, or has to wait. -/
def run (p : Program) (m : Moment) (cascade : Cascade) (origin : String)
    (stack : Stack) (s : State) : State × Option (Wake × Stack) :=
  match _h : advance p m cascade origin stack s with
  | .finished s => (s, none)
  | .suspended wake stack s => (s, some (wake, stack))
  | .running stack s => run p m cascade origin stack s
termination_by p.weight stack
decreasing_by exact advance_weight _h

theorem run_of_finished {p : Program} {m : Moment} {cascade : Cascade} {origin : String}
    {stack : Stack} {s s' : State} (h : advance p m cascade origin stack s = .finished s') :
    run p m cascade origin stack s = (s', none) := by
  rw [run]
  split <;> simp_all

theorem run_of_suspended {p : Program} {m : Moment} {cascade : Cascade} {origin : String}
    {stack stack' : Stack} {wake : Wake} {s s' : State}
    (h : advance p m cascade origin stack s = .suspended wake stack' s') :
    run p m cascade origin stack s = (s', some (wake, stack')) := by
  rw [run]
  split <;> simp_all

theorem run_of_running {p : Program} {m : Moment} {cascade : Cascade} {origin : String}
    {stack stack' : Stack} {s s' : State}
    (h : advance p m cascade origin stack s = .running stack' s') :
    run p m cascade origin stack s = run p m cascade origin stack' s' := by
  rw [run]
  split <;> simp_all

/-- Puts a task to wait, when its run was suspended. -/
def State.keep (s : State) (id : Nat) (origin : String) : Option (Wake × Stack) → State
  | none => s
  | some (wake, stack) => { s with pending := s.pending ++ [⟨id, origin, stack, wake⟩] }

/-- The next task id, and the state in which it is taken. -/
def State.takeTaskId (s : State) : Nat × State :=
  let id := Number.countUp s.lastTaskId 1
  (id, { s with lastTaskId := id })

/-- Starts a task on an action list and runs it as far as it goes. -/
def launch (p : Program) (m : Moment) (cascade : Cascade) (origin : String)
    (actions : List Action) (s : State) : State :=
  let (id, s) := s.takeTaskId
  let (s, rest) := run p m cascade origin [.begin actions] s
  s.keep id origin rest

/-- How writes start watchers when `depth` more of them may nest. -/
def cascadeOf (p : Program) (m : Moment) : Nat → Cascade
  | 0 => none
  | depth + 1 => some fun origin actions s => launch p m (cascadeOf p m depth) origin actions s

/-- How writes start watchers outside of any watcher. -/
def Program.cascade (p : Program) (m : Moment) : Cascade := cascadeOf p m p.limits.maxCallDepth

def start (p : Program) (m : Moment) (origin : String) (actions : List Action) (s : State) :
    State :=
  launch p m (p.cascade m) origin actions s

def startAll (p : Program) (m : Moment) (lists : List (String × List Action)) (s : State) : State :=
  lists.foldl (fun s e => start p m e.1 e.2 s) s

/-- Reports that a trigger fired and starts its list, for each of some lists in order. -/
def fireAll (p : Program) (m : Moment) (fired : List (String × List Action)) (s : State) : State :=
  fired.foldl (fun s e => start p m e.1 e.2 (s.emit (.triggerFired e.1))) s

/-- Goes on with a waiting task that is due. The tasks that wait afterwards are collected in
`kept`. -/
def resumeTask (p : Program) (m : Moment) (kept : List Task) (t : Task) (s : State) :
    List Task × State :=
  if t.wake.isDue m then
    let (s, rest) := run p m (p.cascade m) t.origin t.stack s
    match rest with
    | none => (kept, s)
    | some (wake, stack) => (kept ++ [{ t with stack, wake }], s)
  else (kept ++ [t], s)

def resumeTasks (p : Program) (m : Moment) : List Task → List Task → State → List Task × State
  | kept, [], s => (kept, s)
  | kept, t :: rest, s =>
    let (kept, s) := resumeTask p m kept t s
    resumeTasks p m kept rest s

/-- Goes on with every waiting task that is due; afterwards the waiting tasks stand in the order of
their ids. -/
def resumeDue (p : Program) (m : Moment) (s : State) : State :=
  let (kept, s) := resumeTasks p m [] s.pending { s with pending := [] }
  { s with pending := (kept ++ s.pending).mergeSort fun a b => a.id ≤ b.id }

end BlockStudio.Script
