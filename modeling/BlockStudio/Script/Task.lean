import BlockStudio.Script.Action

/-!
Tasks: an action list together with what remains of the lists and loops around it. A task that has
to wait is kept with the moment at which it may go on.
-/
namespace BlockStudio.Script

structure Moment where
  seconds : Float
  frame : Nat
deriving Repr, DecidableEq

def Moment.start : Moment := ⟨0, 0⟩

/-- What a waiting task waits for. -/
inductive Wake where
  | atTime (seconds : Float)
  | atFrame (frame : Nat)
deriving Repr, DecidableEq

def Wake.isDue (w : Wake) (m : Moment) : Bool :=
  match w with
  | .atTime seconds => m.seconds ≥ seconds
  | .atFrame frame => m.frame ≥ frame

/-- One level of what remains to be done. -/
inductive Frame where
  /-- The rest of an action list; `isCall` marks the body of a called function. -/
  | sequence (rest : List Action) (isCall : Bool)
  /-- A loop of `times` rounds of which `done` have begun. -/
  | counted (body : List Action) (times done yieldedAt : Nat)
  /-- A loop that goes on while a condition holds. -/
  | conditional (condition : Condition) (body : List Action) (done yieldedAt : Nat)

def Frame.isCall : Frame → Bool
  | .sequence _ isCall => isCall
  | _ => false

/-- The frames of a task, the innermost first. -/
abbrev Stack := List Frame

/-- The number of calls that have not returned. -/
def callDepth (stack : Stack) : Nat := (stack.filter Frame.isCall).length

structure Task where
  id : Nat
  /-- The label of the trigger that started the task. -/
  origin : String
  stack : Stack
  wake : Wake

@[simp] theorem callDepth_nil : callDepth [] = 0 := rfl

theorem callDepth_cons (f : Frame) (stack : Stack) :
    callDepth (f :: stack) = (if f.isCall then 1 else 0) + callDepth stack := by
  unfold callDepth
  cases h : f.isCall <;> simp [h, Nat.add_comm]

@[simp] theorem callDepth_sequence (rest : List Action) (isCall : Bool) (stack : Stack) :
    callDepth (.sequence rest isCall :: stack) = isCall.toNat + callDepth stack := by
  rw [callDepth_cons]
  cases isCall <;> rfl

@[simp] theorem callDepth_counted (body : List Action)
    (times done yieldedAt : Nat) (stack : Stack) :
    callDepth (.counted body times done yieldedAt :: stack) = callDepth stack := by
  simp [callDepth_cons, Frame.isCall]

@[simp] theorem callDepth_conditional (c : Condition) (body : List Action)
    (done yieldedAt : Nat) (stack : Stack) :
    callDepth (.conditional c body done yieldedAt :: stack) = callDepth stack := by
  simp [callDepth_cons, Frame.isCall]

end BlockStudio.Script
