import BlockStudio.Script.Machine
import Mathlib.Data.List.Basic
import Mathlib.Logic.Function.Iterate

/-!
A recursive evaluator of action lists. It keeps no stack: branches, rounds of loops, called
functions and watchers are evaluated where they stand. Main statement: where nothing waits and no
loop hands control back, a run of the machine ends, in the state that the evaluator gives.
-/
namespace BlockStudio.Script

/-- Repeats a change of the state while a test holds, at most a given number of times. -/
def whileHolds (test : State → Bool) (change : State → State) : Nat → State → State
  | 0, s => s
  | rounds + 1, s => if test s then whileHolds test change rounds (change s) else s

/-- How a called function is evaluated from its body. None stands for the greatest nesting, at which
no call is entered. -/
abbrev Calling := Option (List Action → State → State)

mutual

/-- The state after an action. Waiting is left to the machine, so here a wait changes nothing. -/
def Action.eval (p : Program) (m : Moment) (cascade : Cascade) (origin : String)
    (calling : Calling) :
    Action → State → State
  | .effect e, s => perform p m cascade origin e s
  | .wait _, s => s
  | .call name, s =>
    match p.functions.get? name with
    | none => s
    | some body =>
      match calling with
      | some enter => enter body s
      | none => s.fault m origin .callFunc ("call depth limit reached calling '" ++ name ++ "'")
  | .whenTrue c body, s => if s.holds c then evalList p m cascade origin calling body s else s
  | .choose c body otherwise, s =>
    if s.holds c then evalList p m cascade origin calling body s
    else evalList p m cascade origin calling otherwise s
  | .chance percent body, s =>
    let drawn : State := { s with random := s.random.next }
    if s.random.sample < percent / 100 then
      evalList p m cascade origin calling body drawn else drawn
  | .repeatTimes times body, s =>
    (fun s => evalList p m cascade origin calling body s)^[min times p.limits.loopCeiling] s
  | .repeatWhile c body, s =>
    whileHolds (·.holds c)
      (fun s => evalList p m cascade origin calling body s) p.limits.loopCeiling s

/-- The state after a list of actions, from left to right. -/
def evalList (p : Program) (m : Moment) (cascade : Cascade) (origin : String) (calling : Calling) :
    List Action → State → State
  | [], s => s
  | a :: rest, s => evalList p m cascade origin calling rest (a.eval p m cascade origin calling s)

end

/-- How functions are evaluated when `budget` more calls may nest. -/
def callingOf (p : Program) (m : Moment) (cascade : Cascade) (origin : String) : Nat → Calling
  | 0 => none
  | budget + 1 => some (evalList p m cascade origin (callingOf p m cascade origin budget))

/-- How watchers are evaluated when `depth` more of them may nest. Each takes a task id and has all
calls before it. -/
def watchingOf (p : Program) (m : Moment) : Nat → Cascade
  | 0 => none
  | depth + 1 => some fun origin actions s =>
    evalList p m (watchingOf p m depth) origin
      (callingOf p m (watchingOf p m depth) origin p.limits.maxCallDepth) actions s.takeTaskId.2

/-- The state after a list of actions that starts outside of any call, when `depth` watchers may
nest. -/
def Program.evaluate (p : Program) (m : Moment) (depth : Nat) (origin : String)
    (actions : List Action) (s : State) : State :=
  evalList p m (watchingOf p m depth) origin
    (callingOf p m (watchingOf p m depth) origin p.limits.maxCallDepth) actions s

mutual

/-- Whether an action is a wait or holds one. -/
def Action.waits : Action → Bool
  | .effect _ => false
  | .wait _ => true
  | .call _ => false
  | .whenTrue _ body => listWaits body
  | .choose _ body otherwise => listWaits body || listWaits otherwise
  | .chance _ body => listWaits body
  | .repeatTimes _ body => listWaits body
  | .repeatWhile _ body => listWaits body

def listWaits : List Action → Bool
  | [] => false
  | a :: rest => a.waits || listWaits rest

end

/-- No function and no watcher waits, and no loop is long enough to hand control back. -/
structure Program.NeverSuspends (p : Program) : Prop where
  functions : ∀ name body, p.functions.get? name = some body → listWaits body = false
  watchers : ∀ name lists, p.watchers.get? name = some lists → ∀ actions ∈ lists,
    listWaits actions = false
  interval : p.limits.loopYieldInterval = 0 ∨ p.limits.loopCeiling ≤ p.limits.loopYieldInterval

theorem run_nil (p : Program) (m : Moment) (cascade : Cascade) (origin : String) (s : State) :
    run p m cascade origin [] s = (s, none) :=
  run_of_finished rfl

theorem Program.NeverSuspends.yieldsAt {p : Program} (hp : p.NeverSuspends)
    {done : Nat} (yieldedAt : Nat) (h : done < p.limits.loopCeiling) :
    Limits.yieldsAt p.limits.loopYieldInterval done yieldedAt = false :=
  Limits.yieldsAt_of_le yieldedAt hp.interval h

/-- Where `budget` more calls may nest, the machine takes a list of actions off the stack as the
evaluator does. -/
def RunsAs (p : Program) (m : Moment) (machine evaluator : Cascade) (origin : String) (budget : Nat)
    (actions : List Action) : Prop :=
  ∀ isCall below s, p.limits.maxCallDepth - callDepth (.sequence [] isCall :: below) = budget →
    run p m machine origin (.sequence actions isCall :: below) s =
      run p m machine origin below
        (evalList p m evaluator origin (callingOf p m evaluator origin budget) actions s)

section
variable {p : Program} {m : Moment} {machine evaluator : Cascade} {origin : String}
    {budget : Nat} {below : Stack}

/-- Each round of a loop pushes the body, which is taken off again before the next round. -/
theorem run_counted (hp : p.NeverSuspends) {body : List Action}
    (hbody : RunsAs p m machine evaluator origin budget body)
    (hbudget : p.limits.maxCallDepth - callDepth below = budget) (yieldedAt : Nat) {times : Nat}
    (htimes : times ≤ p.limits.loopCeiling) (left done : Nat)
    (hleft : done + left = times) (s : State) :
    run p m machine origin (.counted body times done yieldedAt :: below) s =
      run p m machine origin below
        ((fun s => evalList p m evaluator origin (callingOf p m evaluator origin budget) body
          s)^[left] s) := by
  induction left generalizing done s with
  | zero =>
    have hend : advance p m machine origin (.counted body times done yieldedAt :: below) s =
        .running below s := by
      simp only [advance]
      rw [if_pos (by omega)]
    rw [run_of_running hend, Function.iterate_zero, id]
  | succ left ih =>
    have hround : advance p m machine origin (.counted body times done yieldedAt :: below) s =
        .running (.begin body :: .counted body times (done + 1) yieldedAt :: below) s := by
      simp only [advance]
      rw [if_neg (by omega), hp.yieldsAt yieldedAt (by omega)]
      rfl
    rw [run_of_running hround, Frame.begin, hbody false _ s (by simpa using hbudget),
      ih (done + 1) (by omega), Function.iterate_succ_apply]

theorem run_conditional (hp : p.NeverSuspends) {c : Condition} {body : List Action}
    (hbody : RunsAs p m machine evaluator origin budget body)
    (hbudget : p.limits.maxCallDepth - callDepth below = budget) (yieldedAt left done : Nat)
    (hleft : done + left = p.limits.loopCeiling) (s : State) :
    run p m machine origin (.conditional c body done yieldedAt :: below) s =
      run p m machine origin below
        (whileHolds (·.holds c)
          (fun s => evalList p m evaluator origin (callingOf p m evaluator origin budget) body s)
            left s) := by
  induction left generalizing done s with
  | zero =>
    have hend : advance p m machine origin (.conditional c body done yieldedAt :: below) s =
        .running below s := by
      simp only [advance]
      rw [if_pos (by simp; omega)]
    rw [run_of_running hend, whileHolds]
  | succ left ih =>
    by_cases hc : s.holds c = true
    · have hround : advance p m machine origin (.conditional c body done yieldedAt :: below) s =
          .running (.begin body :: .conditional c body (done + 1) yieldedAt :: below) s := by
        simp only [advance]
        rw [if_neg (by simp [hc]; omega), hp.yieldsAt yieldedAt (by omega)]
        rfl
      rw [run_of_running hround, Frame.begin, hbody false _ s (by simpa using hbudget),
        ih (done + 1) (by omega), whileHolds, if_pos hc]
    · have hend : advance p m machine origin (.conditional c body done yieldedAt :: below) s =
          .running below s := by
        simp only [advance]
        rw [if_pos (by simp [hc])]
      rw [run_of_running hend, whileHolds, if_neg hc]

mutual

/-- The machine takes an action off the stack as the evaluator does, if it does so with effects and
with the bodies of functions, which may nest one call less. -/
theorem run_action (hp : p.NeverSuspends)
    (heffect : ∀ e s, perform p m machine origin e s = perform p m evaluator origin e s)
    (hbodies : ∀ less, budget = less + 1 → ∀ name body, p.functions.get? name = some body →
      RunsAs p m machine evaluator origin less body)
    (a : Action) (ha : a.waits = false) (rest : List Action) (isCall : Bool)
    (below : Stack) (s : State)
    (hbudget : p.limits.maxCallDepth - callDepth (.sequence [] isCall :: below) = budget) :
    run p m machine origin (.sequence (a :: rest) isCall :: below) s =
      run p m machine origin (.sequence rest isCall :: below)
        (a.eval p m evaluator origin (callingOf p m evaluator origin budget) s) := by
  have hhere : p.limits.maxCallDepth - callDepth (.sequence rest isCall :: below) = budget := by
    simpa using hbudget
  have hpush : ∀ {body}, RunsAs p m machine evaluator origin budget body → ∀ s,
      run p m machine origin (.begin body :: .sequence rest isCall :: below) s =
        run p m machine origin (.sequence rest isCall :: below)
          (evalList p m evaluator origin (callingOf p m evaluator origin budget) body s) := by
    intro body hbody s
    apply hbody
    simpa using hbudget
  cases a with
  | effect e => rw [run_of_running rfl, Action.eval, heffect]
  | wait seconds => simp [Action.waits] at ha
  | call name =>
    cases hname : p.functions.get? name with
    | none =>
      have hskip : advance p m machine origin (.sequence (.call name :: rest) isCall :: below) s =
          .running (.sequence rest isCall :: below) s := by
        simp only [advance, act, hname]
      rw [run_of_running hskip]
      simp only [Action.eval, hname]
    | some body =>
      cases budget with
      | zero =>
        have hfault :
            advance p m machine origin (.sequence (.call name :: rest) isCall :: below) s =
            .running (.sequence rest isCall :: below)
            (s.fault m origin .callFunc ("call depth limit reached calling '" ++ name ++ "'")) := by
          simp only [advance, act, hname]
          rw [if_neg (by omega)]
        rw [run_of_running hfault]
        simp only [Action.eval, hname, callingOf]
      | succ less =>
        have henter :
            advance p m machine origin (.sequence (.call name :: rest) isCall :: below) s =
            .running (.sequence body true :: .sequence rest isCall :: below) s := by
          simp only [advance, act, hname]
          rw [if_pos (by omega)]
        rw [run_of_running henter]
        simp only [Action.eval, hname, callingOf]
        apply hbodies less rfl name body hname
        simp only [callDepth_sequence, Bool.toNat_true] at hhere ⊢
        omega
  | whenTrue c body =>
    rw [run_of_running rfl, Action.eval]
    split
    · exact hpush (run_list hp heffect hbodies body (by simpa [Action.waits] using ha)) s
    · rfl
  | choose c body otherwise =>
    simp only [Action.waits, Bool.or_eq_false_iff] at ha
    rw [run_of_running rfl, Action.eval]
    split
    · exact hpush (run_list hp heffect hbodies body ha.1) s
    · exact hpush (run_list hp heffect hbodies otherwise ha.2) s
  | chance percent body =>
    rw [run_of_running rfl, Action.eval]
    split
    · exact hpush (run_list hp heffect hbodies body (by simpa [Action.waits] using ha)) _
    · rfl
  | repeatTimes times body =>
    rw [run_of_running rfl, Action.eval]
    exact run_counted hp (run_list hp heffect hbodies body (by simpa [Action.waits] using ha)) hhere
      0 (Nat.min_le_right _ _) _ 0 (Nat.zero_add _) s
  | repeatWhile c body =>
    rw [run_of_running rfl, Action.eval]
    exact run_conditional hp (run_list hp heffect hbodies body (by simpa [Action.waits] using ha))
      hhere 0 _ 0 (Nat.zero_add _) s
termination_by structural a

theorem run_list (hp : p.NeverSuspends)
    (heffect : ∀ e s, perform p m machine origin e s = perform p m evaluator origin e s)
    (hbodies : ∀ less, budget = less + 1 → ∀ name body, p.functions.get? name = some body →
      RunsAs p m machine evaluator origin less body)
    (actions : List Action) (hactions : listWaits actions = false) :
    RunsAs p m machine evaluator origin budget actions := by
  intro isCall below s hbudget
  cases actions with
  | nil => rw [run_of_running rfl, evalList]
  | cons a rest =>
    simp only [listWaits, Bool.or_eq_false_iff] at hactions
    rw [run_action hp heffect hbodies a hactions.1 rest isCall below s hbudget, evalList]
    exact run_list hp heffect hbodies rest hactions.2 isCall below _ hbudget
termination_by structural actions

end

/-- The induction is on the calls that may still nest: the body of a function is entered with one
call less. -/
theorem runsAs (hp : p.NeverSuspends)
    (heffect : ∀ e s, perform p m machine origin e s = perform p m evaluator origin e s)
    {actions : List Action} (hactions : listWaits actions = false) :
    RunsAs p m machine evaluator origin budget actions := by
  induction budget generalizing actions with
  | zero => exact run_list hp heffect (by simp) actions hactions
  | succ budget ih =>
    apply run_list hp heffect _ actions hactions
    rintro less hless name body hbody
    obtain rfl : budget = less := by omega
    exact ih (hp.functions name body hbody)

end

section
variable {p : Program} {m : Moment}

theorem run_begin (hp : p.NeverSuspends) {machine evaluator : Cascade} {origin : String}
    (heffect : ∀ e s, perform p m machine origin e s = perform p m evaluator origin e s)
    {actions : List Action} (hactions : listWaits actions = false) (s : State) :
    run p m machine origin [.begin actions] s =
      (evalList p m evaluator origin (callingOf p m evaluator origin p.limits.maxCallDepth)
        actions s, none) := by
  have hruns : RunsAs p m machine evaluator origin p.limits.maxCallDepth actions :=
    runsAs hp heffect hactions
  rw [Frame.begin, hruns false [] s (by simp), run_nil]

/-- A write only asks of a cascade how it starts the watchers of the variable. -/
theorem write_congr {first second : Cascade} (hnone : first = none ↔ second = none)
    (hsome : ∀ start start', first = some start → second = some start' → ∀ name lists,
      p.watchers.get? name = some lists → ∀ actions ∈ lists, ∀ label s,
        start label actions s = start' label actions s)
    (origin name : String) (value : Float) (s : State) :
    write p m first origin name value s = write p m second origin name value s := by
  simp only [write]
  cases hlists : p.watchers.get? name with
  | none => rfl
  | some lists =>
    cases first with
    | none => rw [hnone.1 rfl]
    | some start =>
      cases second with
      | none => simp at hnone
      | some start' =>
        apply List.foldl_ext
        intro s actions hmem
        exact hsome start start' rfl rfl name lists hlists actions hmem _ s

theorem perform_congr {first second : Cascade} {origin : String}
    (hwrite : ∀ name value s, write p m first origin name value s =
      write p m second origin name value s)
    (e : Effect) (s : State) : perform p m first origin e s = perform p m second origin e s := by
  cases e <;> simp only [perform, hwrite]

/-- The induction is on the watchers that may still nest: a watcher runs with one watcher less. -/
theorem perform_watchingOf (hp : p.NeverSuspends) (depth : Nat) (origin : String)
    (e : Effect) (s : State) :
    perform p m (cascadeOf p m depth) origin e s =
      perform p m (watchingOf p m depth) origin e s := by
  induction depth generalizing origin e s with
  | zero => rfl
  | succ depth ih =>
    apply perform_congr
    apply write_congr (by simp [cascadeOf, watchingOf])
    rintro start start' hstart hstart' name lists hlists actions hmem label s
    cases hstart
    cases hstart'
    have hrun := run_begin hp (ih label) (hp.watchers name lists hlists actions hmem) s.takeTaskId.2
    simp only [launch, hrun, State.keep]

/-- A fresh task on a list without waits finishes, and leaves the state that the recursive evaluator
gives, whatever functions call and watchers write. -/
theorem run_eq_evaluate (hp : p.NeverSuspends) (depth : Nat) (origin : String)
    {actions : List Action} (hactions : listWaits actions = false) (s : State) :
    run p m (cascadeOf p m depth) origin [.begin actions] s =
      (p.evaluate m depth origin actions s, none) :=
  run_begin hp (perform_watchingOf hp depth origin) hactions s

end

/-- A program in which a function calls itself and a watcher writes the variable that it watches. -/
def feedingProgram : Program where
  limits := ⟨3, 0, 2⟩
  functions := Table.empty.insert "f" [.effect (.changeVariable "x" 1), .call "f"]
  watchers := Table.empty.insert "x" [[.effect (.changeVariable "x" 1)], [.effect (.addScore 1)]]

theorem feedingProgram_neverSuspends : feedingProgram.NeverSuspends where
  functions := by simp [feedingProgram, Table.get?_insert, listWaits, Action.waits]
  watchers := by simp [feedingProgram, Table.get?_insert, listWaits, Action.waits]
  interval := by decide

def feedingList : List Action :=
  [.repeatTimes 5 [.call "f"],
    .repeatWhile ⟨"x", some .ge, 0⟩ [.chance 50 [.effect (.changeVariable "x" (-1))]]]

theorem run_feedingList :
    feedingProgram.NeverSuspends ∧ listWaits feedingList = false ∧
      run feedingProgram .start (cascadeOf feedingProgram .start 2) "on_start" [.begin feedingList]
          ⟨.empty, none, [], 0, .empty, .ofSeed 7, .empty⟩ =
        (feedingProgram.evaluate .start 2 "on_start" feedingList ⟨.empty, none, [], 0, .empty,
          .ofSeed 7, .empty⟩, none) :=
  ⟨feedingProgram_neverSuspends, rfl,
    run_eq_evaluate feedingProgram_neverSuspends 2 "on_start" rfl _⟩

end BlockStudio.Script
