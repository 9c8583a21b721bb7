import BlockStudio.Script.State

/-!
The weight of a stack: a bound on the steps that the stack can still take before it is done or
waits. The bodies of functions are weighed by the calls that may still nest, and a loop by the
rounds that it may still take. The lemmas say how each way of pushing a frame is paid for.
-/
namespace BlockStudio.Script

mutual

/-- The weight of an action, when a call weighs `call` and a conditional loop takes at most
`ceiling` rounds. -/
def Action.weight (ceiling call : Nat) : Action → Nat
  | .effect _ => 1
  | .wait _ => 1
  | .call _ => 1 + call
  | .whenTrue _ body => 2 + listWeight ceiling call body
  | .choose _ body otherwise => 2 + listWeight ceiling call body + listWeight ceiling call otherwise
  | .chance _ body => 2 + listWeight ceiling call body
  | .repeatTimes times body => 2 + times * (2 + listWeight ceiling call body)
  | .repeatWhile _ body => 2 + ceiling * (2 + listWeight ceiling call body)

def listWeight (ceiling call : Nat) : List Action → Nat
  | [] => 0
  | a :: rest => a.weight ceiling call + listWeight ceiling call rest

end

def heaviest (ceiling call : Nat) : List (String × List Action) → Nat
  | [] => 0
  | e :: rest => max (listWeight ceiling call e.2) (heaviest ceiling call rest)

/-- The weight of a call when `budget` calls may still nest. -/
def Program.callWeight (p : Program) : Nat → Nat
  | 0 => 0
  | budget + 1 => 1 + heaviest p.limits.loopCeiling (p.callWeight budget) p.functions.entries

/-- The weight of a frame when a call weighs `call`. -/
def Frame.weight (ceiling call : Nat) : Frame → Nat
  | .sequence rest _ => 1 + listWeight ceiling call rest
  | .counted body times done _ => 1 + (times - done) * (2 + listWeight ceiling call body)
  | .conditional _ body done _ => 1 + (ceiling - done) * (2 + listWeight ceiling call body)

/-- The weight of a call inside a stack. -/
def Program.callWeightIn (p : Program) (stack : Stack) : Nat :=
  p.callWeight (p.limits.maxCallDepth - callDepth stack)

def Program.weight (p : Program) : Stack → Nat
  | [] => 0
  | f :: below => f.weight p.limits.loopCeiling (p.callWeightIn (f :: below)) + p.weight below

theorem le_heaviest {ceiling call : Nat} {es : List (String × List Action)} {name : String}
    {body : List Action} (h : Table.search name es = some body) :
    listWeight ceiling call body ≤ heaviest ceiling call es := by
  induction es with
  | nil => cases h
  | cons e rest ih =>
    unfold Table.search at h
    split at h
    · cases h
      exact Nat.le_max_left _ _
    · exact Nat.le_trans (ih h) (Nat.le_max_right _ _)

/-- The body of a called function, with the frame it gets, weighs no more than the call. -/
theorem body_le_callWeight (p : Program) {name : String} {body : List Action} (budget : Nat)
    (h : p.functions.get? name = some body) :
    1 + listWeight p.limits.loopCeiling (p.callWeight budget) body ≤ p.callWeight (budget + 1) := by
  rw [Program.callWeight]
  exact Nat.add_le_add_left (le_heaviest h) 1

/-- What is below a frame that is no call has the calls of the whole. -/
theorem callWeightIn_cons_of_not_call (p : Program) {f : Frame} (stack : Stack)
    (h : f.isCall = false) :
    p.callWeightIn (f :: stack) = p.callWeightIn stack := by
  simp [Program.callWeightIn, callDepth_cons, h]

/-- Only whether a frame is a call matters to the weight of calls. -/
theorem callWeightIn_congr (p : Program) {f g : Frame} (stack : Stack) (h : f.isCall = g.isCall) :
    p.callWeightIn (f :: stack) = p.callWeightIn (g :: stack) := by
  simp [Program.callWeightIn, callDepth_cons, h]

/-- One round less of a loop pays for the frame of its body. -/
theorem round_lt {times done w : Nat} (h : done < times) :
    (1 + w) + (1 + (times - (done + 1)) * (2 + w)) < 1 + (times - done) * (2 + w) := by
  obtain ⟨k, hk⟩ : ∃ k, times - done = k + 1 := ⟨times - done - 1, by omega⟩
  have hk' : times - (done + 1) = k := by omega
  rw [hk, hk', Nat.add_mul]
  omega

end BlockStudio.Script
