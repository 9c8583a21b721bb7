import BlockStudio.Proofs.Plays

/-!
What scripts put out and never read back: messages, events and faults, beside the waiting tasks.
Main statement: a step of a run does the same whatever is there of these, and puts out the same. Two
states that differ in them alone are alike to every script.
-/
namespace BlockStudio.Script

/-- The part of a state that no action of a script reads. -/
structure Unread where
  overlay : Option Overlay
  pending : List Task
  lastTaskId : Nat
  faults : FaultLog
  bus : EventBus

/-- What an action puts out: an event, a fault with its action and message, and a message on the
screen. -/
structure Output where
  event? : Option EventContent
  fault? : Option (ActionKind × String)
  overlay? : Option Overlay

namespace Output

def none : Output := ⟨.none, .none, .none⟩

def faultAt? (o : Output) (m : Moment) (origin : String) : Option Fault :=
  o.fault?.map fun (action, message) => ⟨origin, action, message, m.frame⟩

end Output

/-- Adds what an action puts out in a moment. -/
def Unread.put (x : Unread) (m : Moment) (origin : String) (o : Output) : Unread :=
  { x with
    overlay := o.overlay?.or x.overlay
    faults := (o.faultAt? m origin).toList.foldl .push x.faults
    bus := o.event?.toList.foldl .emit x.bus }

namespace State

def unread (s : State) : Unread := ⟨s.overlay, s.pending, s.lastTaskId, s.faults, s.world.bus⟩

def withUnread (s : State) (x : Unread) : State :=
  { s with
    overlay := x.overlay
    pending := x.pending
    lastTaskId := x.lastTaskId
    faults := x.faults
    world := { s.world with bus := x.bus } }

/-- Two states that differ in what scripts never read alone. -/
def Alike (s s' : State) : Prop := s' = s.withUnread s'.unread

@[simp] theorem withUnread_unread (s : State) : s.withUnread s.unread = s := rfl

namespace Alike
variable {s s' s'' : State}

theorem refl (s : State) : s.Alike s := rfl

theorem withUnread (s : State) (x : Unread) : s.Alike (s.withUnread x) := rfl

theorem symm (h : s.Alike s') : s'.Alike s := by
  rw [Alike, h]
  rfl

theorem trans (h : s.Alike s') (g : s'.Alike s'') : s.Alike s'' := by
  rw [Alike, h] at g
  exact g

theorem variableValues_eq (h : s.Alike s') : s'.variableValues = s.variableValues := by
  rw [h]
  rfl

theorem random_eq (h : s.Alike s') : s'.random = s.random := by
  rw [h]
  rfl

theorem world_eq (h : s.Alike s') :
    { s'.world with bus := .empty } = { s.world with bus := .empty } := by
  rw [h]
  rfl

theorem holds_eq (h : s.Alike s') (c : Condition) : s'.holds c = s.holds c := by
  simp only [holds, read, h.variableValues_eq]

end Alike

end State

/-- The task of a run that has stopped, if it is not over. -/
def taskOf (id : Nat) (origin : String) (rest : Option (Wake × Stack)) : Option Task :=
  rest.map fun (wake, stack) => ⟨id, origin, stack, wake⟩

theorem State.keep_eq (s : State) (id : Nat) (origin : String) (rest : Option (Wake × Stack)) :
    s.keep id origin rest = { s with pending := s.pending ++ (taskOf id origin rest).toList } := by
  cases rest with
  | none => rw [taskOf, Option.map_none, Option.toList_none, List.append_nil]; rfl
  | some rest => rfl

/-- What is never read does not change what an effect does, and an effect only adds to it. -/
theorem perform_withUnread (p : Program) (origin : String) (e : Effect) (s : State) :
    ∃ o : Output, (∀ label, o.event? ≠ some (.triggerFired label)) ∧ ∀ m x,
      perform p m none origin e (s.withUnread x) =
        (perform p .start none origin e s).withUnread (x.put m origin o) := by
  have hwrite : ∀ name value, ∃ o : Output, (∀ label, o.event? ≠ some (.triggerFired label)) ∧
      ∀ m x, write p m none origin name value (s.withUnread x) =
        (write p .start none origin name value s).withUnread (x.put m origin o) := by
    intro name value
    cases hlists : p.watchers.get? name with
    | none =>
      refine ⟨.none, by simp [Output.none], fun m x => ?_⟩
      simp only [write, hlists, State.store]
      split <;> rfl
    | some lists =>
      refine ⟨⟨none, some (.setVar, "watcher cascade limit reached on '" ++ name ++ "'"), none⟩,
        by simp, fun m x => ?_⟩
      simp only [write, hlists, State.store]
      split <;> rfl
  have hquiet : (∀ m x, perform p m none origin e (s.withUnread x) =
        (perform p .start none origin e s).withUnread x) →
      ∃ o : Output, (∀ label, o.event? ≠ some (.triggerFired label)) ∧ ∀ m x,
        perform p m none origin e (s.withUnread x) =
          (perform p .start none origin e s).withUnread (x.put m origin o) :=
    fun h => ⟨.none, by simp [Output.none], h⟩
  cases e with
  | setVariable name value =>
    by_cases hname : name.isEmpty = true
    · exact hquiet fun m x => by simp only [perform, if_pos hname]
    · simpa only [perform, if_neg hname] using hwrite name value
  | changeVariable name delta =>
    by_cases hname : name.isEmpty = true
    · exact hquiet fun m x => by simp only [perform, if_pos hname]
    · simp only [perform, if_neg hname]
      exact hwrite name (s.read name + delta)
  | destroy id =>
    by_cases hid : s.world.objects.contains id = true
    · refine ⟨⟨some (.objectDestroyed id (s.world.tracking.untrack id).1), none, none⟩,
        by simp, fun m x => ?_⟩
      have hworld : (s.withUnread x).world.objects.contains id = true := hid
      simp only [perform, World.destroyObject, if_pos hid, if_pos hworld]
      rfl
    · have hworld : ∀ x, ¬(s.withUnread x).world.objects.contains id = true := fun _ => hid
      exact hquiet fun m x => by
        simp only [perform, World.destroyObject, if_neg hid, if_neg (hworld x)]
  | setColor id color =>
    by_cases hid : s.world.objects.contains id = true
    · have hworld : ∀ x, (s.withUnread x).world.objects.contains id = true := fun _ => hid
      cases hcolor : Color.ofText color with
      | ok c =>
        exact hquiet fun m x => by
          simp only [perform, if_pos hid, if_pos (hworld x), hcolor]
          rfl
      | error err =>
        refine ⟨⟨none, some (.setColor, "invalid color '" ++ color ++ "': " ++ err.message), none⟩,
          by simp, fun m x => ?_⟩
        simp only [perform, if_pos hid, if_pos (hworld x), hcolor]
        rfl
    · have hworld : ∀ x, ¬(s.withUnread x).world.objects.contains id = true := fun _ => hid
      exact hquiet fun m x => by simp only [perform, if_neg hid, if_neg (hworld x)]
  | showMessage text seconds =>
    exact ⟨⟨some (.message text), none, some ⟨text, seconds⟩⟩, by simp, fun m x => rfl⟩
  | endGame => exact ⟨⟨some (.gameEnded origin), none, none⟩, by simp, fun m x => rfl⟩
  | _ => exact hquiet fun m x => rfl

section
variable {p : Program} {m : Moment} {origin : String}

theorem Effect.write?_withUnread (e : Effect) (s : State) (x : Unread) :
    e.write? (s.withUnread x) = e.write? s := by
  cases e <;> rfl

theorem watchedWrite?_withUnread (s : State) (x : Unread) (stack : Stack) :
    watchedWrite? p (s.withUnread x) stack = watchedWrite? p s stack := by
  unfold watchedWrite?
  split
  · rw [Effect.write?_withUnread]
  · rfl

theorem watchedWrite?_eq_none (hp : ∀ name, p.watchers.get? name = none)
    (s : State) (stack : Stack) :
    watchedWrite? p s stack = none := by
  unfold watchedWrite?
  split
  · simp [hp]
  · rfl

/-- What a step of a run does, in every moment and whatever is there of what is never read: the run
is over, or it is suspended, or it goes on and has put something out. No step of a run reports that
a trigger fired. -/
inductive StepOutcome (p : Program) (origin : String) (stack : Stack) (s : State) : Prop
  | finished (h : stack = [])
  | suspended (wake : Moment → Wake) (stack' : Stack)
    (h : ∀ m x, advance p m none origin stack (s.withUnread x) =
      .suspended (wake m) stack' (s.withUnread x))
  | running (stack' : Stack) (s' : State) (o : Output)
    (ho : ∀ label, o.event? ≠ some (.triggerFired label))
    (h : ∀ m x, advance p m none origin stack (s.withUnread x) =
    .running stack' (s'.withUnread (x.put m origin o)))

theorem StepOutcome.quiet {stack : Stack} {s : State} (stack' : Stack) (s' : State)
    (h : ∀ m x, advance p m none origin stack (s.withUnread x) =
      .running stack' (s'.withUnread x)) :
    StepOutcome p origin stack s :=
  .running stack' s' .none (by simp [Output.none]) h

theorem stepOutcome_action (a : Action) (rest : List Action) (isCall : Bool)
    (below : Stack) (s : State) :
    StepOutcome p origin (.sequence (a :: rest) isCall :: below) s := by
  cases a with
  | effect e =>
    obtain ⟨o, ho, hperform⟩ := perform_withUnread p origin e s
    exact .running _ _ o ho fun m x => congrArg (Progress.running _) (hperform m x)
  | wait seconds => exact .suspended (fun m => .atTime (m.seconds + seconds)) _ fun _ _ => rfl
  | call name =>
    cases hname : p.functions.get? name with
    | none =>
      exact .quiet (.sequence rest isCall :: below) s fun m x => by simp only [advance, act, hname]
    | some body =>
      by_cases hdepth : callDepth (.sequence rest isCall :: below) < p.limits.maxCallDepth
      · exact .quiet (.sequence body true :: .sequence rest isCall :: below) s fun m x => by
          simp only [advance, act, hname, if_pos hdepth]
      · refine .running (.sequence rest isCall :: below) s
          ⟨none, some (.callFunc, "call depth limit reached calling '" ++ name ++ "'"), none⟩
            (by simp) fun m x => ?_
        simp only [advance, act, hname, if_neg hdepth]
        rfl
  | whenTrue c body =>
    exact .quiet (if s.holds c then .begin body :: .sequence rest isCall :: below
      else .sequence rest isCall :: below) s fun _ _ => rfl
  | choose c body otherwise =>
    exact .quiet (.begin (if s.holds c then body else otherwise) :: .sequence rest isCall ::
      below) s fun _ _ => rfl
  | chance percent body =>
    exact .quiet (if s.random.sample < percent / 100 then
      .begin body :: .sequence rest isCall :: below else .sequence rest isCall :: below)
        { s with random := s.random.next } fun _ _ => rfl
  | repeatTimes times body => exact .quiet _ s fun _ _ => rfl
  | repeatWhile c body => exact .quiet _ s fun _ _ => rfl

theorem stepOutcome (stack : Stack) (s : State) : StepOutcome p origin stack s := by
  cases stack with
  | nil => exact .finished rfl
  | cons frame below =>
    cases frame with
    | sequence actions isCall =>
      cases actions with
      | nil => exact .quiet _ s fun _ _ => rfl
      | cons a rest => exact stepOutcome_action a rest isCall below s
    | counted body times done yieldedAt =>
      by_cases hover : times ≤ done
      · exact .quiet below s fun m x => by simp only [advance, if_pos hover]
      · by_cases hyield : Limits.yieldsAt p.limits.loopYieldInterval done yieldedAt = true
        · exact .suspended (fun m => .atFrame (Number.countUp m.frame 1))
            (.counted body times done done :: below) fun m x => by
              simp only [advance, if_neg hover, if_pos hyield]
        · exact .quiet (.begin body :: .counted body times (done + 1) yieldedAt :: below) s
            fun m x => by
            simp only [advance, if_neg hover, if_neg hyield]
    | conditional c body done yieldedAt =>
      have hholds : ∀ x, (s.withUnread x).holds c = s.holds c := fun _ => rfl
      by_cases hover : (p.limits.loopCeiling ≤ done || !s.holds c) = true
      · exact .quiet below s fun m x => by simp only [advance, hholds, if_pos hover]
      · by_cases hyield : Limits.yieldsAt p.limits.loopYieldInterval done yieldedAt = true
        · exact .suspended (fun m => .atFrame (Number.countUp m.frame 1))
            (.conditional c body done done :: below) fun m x => by
              simp only [advance, hholds, if_neg hover, if_pos hyield]
        · exact .quiet (.begin body :: .conditional c body (done + 1) yieldedAt :: below) s
            fun m x => by
            simp only [advance, hholds, if_neg hover, if_neg hyield]

end

end BlockStudio.Script
