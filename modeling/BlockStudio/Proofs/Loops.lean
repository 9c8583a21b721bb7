import BlockStudio.Proofs.Traces
import Mathlib.Data.List.Infix

/-!
The accounts of loops. A loop is followed from the step that begins it to the step that leaves it,
over all frames in which its task goes on. What the loop itself does in this time is a list of
turns: it starts its body, hands control back, or is left. Main statement: a counted loop takes
exactly the turns of its schedule, and a conditional loop those of its schedule until its condition
fails, unless the play ends while the task waits.
-/
namespace BlockStudio.Script

/-- A loop that a run is in: one of some rounds, or one that goes on while a condition holds. -/
inductive Loop where
  | counted (times : Nat) (body : List Action)
  | conditional (condition : Condition) (body : List Action)

namespace Loop

def body : Loop → List Action
  | .counted _ body => body
  | .conditional _ body => body

def frame (l : Loop) (done yieldedAt : Nat) : Frame :=
  match l with
  | .counted times body => .counted body times done yieldedAt
  | .conditional c body => .conditional c body done yieldedAt

/-- The rounds after which the loop is left in any case. -/
def limit (p : Program) : Loop → Nat
  | .counted times _ => times
  | .conditional _ _ => p.limits.loopCeiling

def goesOn (s : State) : Loop → Bool
  | .counted _ _ => true
  | .conditional c _ => s.holds c

end Loop

/-- What a loop does when it is its turn. -/
inductive Turn where
  | start
  | yield
  | leave
deriving Repr, DecidableEq

/-- The turns of a loop in the round after `done` others. -/
def turnsOfRound (interval done : Nat) : List Turn :=
  if 0 < interval ∧ 0 < done ∧ interval ∣ done then [.yield, .start] else [.start]

/-- The turns of a loop in a number of rounds. -/
def schedule (interval rounds : Nat) : List Turn :=
  (List.range rounds).flatMap (turnsOfRound interval)

/-- The turns that a loop has left for some rounds, from its counters. -/
def turnsLeft (interval : Nat) : Nat → Nat → Nat → List Turn
  | 0, _, _ => []
  | rounds + 1, done, yieldedAt =>
    if Limits.yieldsAt interval done yieldedAt then
      .yield :: .start :: turnsLeft interval rounds (done + 1) done
    else .start :: turnsLeft interval rounds (done + 1) yieldedAt

/-- The turn that the loop above a stack takes in a step, if the step is one of the loop itself. -/
def RunStep.turn? (p : Program) (here : Stack) (u : RunStep) : Option Turn :=
  if u.stack.length = here.length + 1 then
    match u.progress p with
    | .running stack _ => some (if stack.length ≤ here.length then .leave else .start)
    | .suspended _ _ _ => some .yield
    | .finished _ => none
  else none

/-- The turns that the loop above a stack takes in some steps. -/
def turns (p : Program) (here : Stack) (us : List RunStep) : List Turn :=
  us.filterMap (RunStep.turn? p here)

/-- A step of a run inside of a loop. A turn of the loop is what it says: the body starts while the
loop may go on, the task waits for the next frame, or the loop is gone. -/
structure RunStep.IsIn (p : Program) (l : Loop) (here : Stack) (u : RunStep) : Prop where
  inside : ∃ above done yieldedAt, u.stack = above ++ l.frame done yieldedAt :: here
  starts : u.turn? p here = some .start →
    l.goesOn u.state = true ∧ ∃ stack s, u.progress p = .running (.begin l.body :: stack) s
  yields : u.turn? p here = some .yield → u.PutsOff p
  leaves : u.turn? p here = some .leave → ∃ s, u.progress p = .running here s

/-- The steps of a run in a loop, from a step that begins the loop on. They are among the later
steps of the play, each goes on where the one before left the run, and all are inside of the
loop. -/
structure Lifetime (p : Program) (l : Loop) (here : Stack) (begun : RunStep)
    (later life : List RunStep) : Prop where
  sublist : life.Sublist later
  follows : (begun :: life).IsChain (RunStep.Follows p)
  isIn : ∀ u ∈ life, u.IsIn p l here

/-- The last of some steps leaves the loop. -/
def Leaves (p : Program) (l : Loop) (here : Stack) (us : List RunStep) (isOver : Prop) : Prop :=
  ∃ u, us.getLast? = some u ∧ u.turn? p here = some .leave ∧ (l.goesOn u.state = false ∨ isOver)

/-- The last of some steps suspends the run, and its task waits in an engine. -/
def EndsWaiting (p : Program) (e : Engine) (us : List RunStep) : Prop :=
  ∃ u, us.getLast? = some u ∧ u.StillWaits p e

/-- Some steps take turns from a list, and then leave the loop or end with the task waiting. -/
def Takes (p : Program) (e : Engine) (l : Loop) (here : Stack) (goal : List Turn)
    (us : List RunStep) : Prop :=
  ∃ ts, ts <+: goal ∧
    ((turns p here us = ts ++ [.leave] ∧ Leaves p l here us (ts = goal)) ∨
      (turns p here us = ts ∧ EndsWaiting p e us))

section
variable {p : Program} {m : Moment} {origin : String}

theorem advance_loop (cascade : Cascade) (l : Loop) (done yieldedAt : Nat)
    (below : Stack) (s : State) :
    advance p m cascade origin (l.frame done yieldedAt :: below) s =
      if l.limit p ≤ done ∨ l.goesOn s = false then .running below s
      else if Limits.yieldsAt p.limits.loopYieldInterval done yieldedAt then
        .suspended (.atFrame (Number.countUp m.frame 1)) (l.frame done done :: below) s
      else .running (.begin l.body :: l.frame (done + 1) yieldedAt :: below) s := by
  cases l with
  | counted times body =>
    simp only [advance, Loop.frame, Loop.limit, Loop.goesOn, Loop.body,
      Bool.true_eq_false, or_false]
  | conditional c body =>
    have hover : (decide (p.limits.loopCeiling ≤ done) || !s.holds c) = true ↔
        p.limits.loopCeiling ≤ done ∨ s.holds c = false := by simp
    exact if_congr hover rfl rfl

/-- A step changes the innermost frame only. -/
theorem advance_cons (cascade : Cascade) (f : Frame) (below : Stack) (s : State) :
    (∃ new s', advance p m cascade origin (f :: below) s = .running (new ++ below) s') ∨
      ∃ wake new s', advance p m cascade origin (f :: below) s =
        .suspended wake (new ++ below) s' := by
  cases f with
  | counted body times done yieldedAt =>
    simp only [advance]
    split
    · exact .inl ⟨[], s, rfl⟩
    · split
      · exact .inr ⟨_, [_], s, rfl⟩
      · exact .inl ⟨[_, _], s, rfl⟩
  | conditional c body done yieldedAt =>
    simp only [advance]
    split
    · exact .inl ⟨[], s, rfl⟩
    · split
      · exact .inr ⟨_, [_], s, rfl⟩
      · exact .inl ⟨[_, _], s, rfl⟩
  | sequence actions isCall =>
    cases actions with
    | nil => exact .inl ⟨[], s, rfl⟩
    | cons a rest =>
      cases a with
      | effect e => exact .inl ⟨[_], _, rfl⟩
      | wait seconds => exact .inr ⟨_, [_], s, rfl⟩
      | call name =>
        simp only [advance, act]
        split
        · exact .inl ⟨[_], s, rfl⟩
        · split
          · exact .inl ⟨[_, _], s, rfl⟩
          · exact .inl ⟨[_], _, rfl⟩
      | whenTrue c body =>
        simp only [advance, act]
        split
        · exact .inl ⟨[_, _], s, rfl⟩
        · exact .inl ⟨[_], s, rfl⟩
      | choose c body otherwise => exact .inl ⟨[_, _], s, rfl⟩
      | chance percent body =>
        simp only [advance, act]
        split
        · exact .inl ⟨[_, _], _, rfl⟩
        · exact .inl ⟨[_], _, rfl⟩
      | repeatTimes times body => exact .inl ⟨[_, _], s, rfl⟩
      | repeatWhile c body => exact .inl ⟨[_, _], s, rfl⟩

theorem turnsLeft_of_yieldsAt {interval done yieldedAt : Nat} (rounds : Nat)
    (h : Limits.yieldsAt interval done yieldedAt = true) :
    turnsLeft interval (rounds + 1) done yieldedAt =
      .yield :: turnsLeft interval (rounds + 1) done done := by
  have hagain : Limits.yieldsAt interval done done = false := by simp [Limits.yieldsAt]
  rw [turnsLeft, if_pos h, turnsLeft, hagain]
  rfl

theorem turnsLeft_of_not_yieldsAt {interval done yieldedAt : Nat} (rounds : Nat)
    (h : Limits.yieldsAt interval done yieldedAt = false) :
    turnsLeft interval (rounds + 1) done yieldedAt =
      .start :: turnsLeft interval rounds (done + 1) yieldedAt := by
  rw [turnsLeft, h]
  rfl

/-- A loop that has not handed control back in its round has the turns of all its rounds left. -/
theorem turnsLeft_eq (interval rounds done yieldedAt : Nat)
    (h : yieldedAt < done ∨ yieldedAt = 0 ∧ done = 0) :
    turnsLeft interval rounds done yieldedAt =
      (List.range' done rounds).flatMap (turnsOfRound interval) := by
  induction rounds generalizing done yieldedAt with
  | zero => rfl
  | succ rounds ih =>
    rw [List.range'_succ, List.flatMap_cons, turnsOfRound]
    have hyields : Limits.yieldsAt interval done yieldedAt = true ↔
        0 < interval ∧ 0 < done ∧ interval ∣ done := by
      simp only [Limits.yieldsAt, Bool.not_eq_true', Bool.or_eq_false_iff, beq_eq_false_iff_ne,
        bne_eq_false_iff_eq, Nat.dvd_iff_mod_eq_zero]
      omega
    by_cases hturn : 0 < interval ∧ 0 < done ∧ interval ∣ done
    · rw [turnsLeft, if_pos (hyields.2 hturn), if_pos hturn,
        ih (done + 1) done (.inl (Nat.lt_succ_self done))]
      rfl
    · rw [turnsLeft, if_neg (mt hyields.1 hturn), if_neg hturn,
        ih (done + 1) yieldedAt (.inl (by omega))]
      rfl

theorem turnsLeft_eq_schedule (interval rounds : Nat) :
    turnsLeft interval rounds 0 0 = schedule interval rounds := by
  rw [turnsLeft_eq interval rounds 0 0 (.inr ⟨rfl, rfl⟩), schedule, List.range_eq_range']

example : schedule 2 5 = [.start, .start, .yield, .start, .start, .yield, .start] := by decide

/-- A schedule starts the body once in each round. -/
theorem count_start_schedule (interval rounds : Nat) :
    (schedule interval rounds).count .start = rounds := by
  induction rounds with
  | zero => rfl
  | succ rounds ih =>
    have hround : (turnsOfRound interval rounds).count .start = 1 := by
      unfold turnsOfRound
      split <;> rfl
    rw [schedule, List.range_succ, List.flatMap_append, List.count_append, ← schedule, ih,
      List.flatMap_singleton, hround]

end

section
variable {p : Program} {e : Engine} {l : Loop} {here : Stack} {u : RunStep} {us : List RunStep}
    {goal : List Turn}

/-- A step in which it is not the turn of the loop comes before the others and adds nothing. -/
theorem Takes.cons_of_none (h : Takes p e l here goal us) (hturn : u.turn? p here = none) :
    Takes p e l here goal (u :: us) := by
  obtain ⟨ts, hprefix, hend⟩ := h
  have hturns : turns p here (u :: us) = turns p here us := List.filterMap_cons_none hturn
  refine ⟨ts, hprefix, ?_⟩
  rcases hend with ⟨hts, last, hlast, hleaves⟩ | ⟨hts, last, hlast, hwaits⟩
  · exact .inl ⟨hturns.trans hts, last, List.mem_getLast?_cons hlast, hleaves⟩
  · exact .inr ⟨hturns.trans hts, last, List.mem_getLast?_cons hlast, hwaits⟩

/-- A step in which the loop takes a turn comes before the others with this turn. -/
theorem Takes.cons_of_some {t : Turn} (h : Takes p e l here goal us)
    (hturn : u.turn? p here = some t) :
    Takes p e l here (t :: goal) (u :: us) := by
  obtain ⟨ts, hprefix, hend⟩ := h
  have hturns : turns p here (u :: us) = t :: turns p here us := List.filterMap_cons_some hturn
  refine ⟨t :: ts, List.prefix_cons_inj t |>.2 hprefix, ?_⟩
  rcases hend with ⟨hts, last, hlast, hleave, hover⟩ | ⟨hts, last, hlast, hwaits⟩
  · refine .inl ⟨by rw [hturns, hts, List.cons_append], last,
      List.mem_getLast?_cons hlast, hleave, ?_⟩
    exact hover.imp_right (congrArg (t :: ·))
  · exact .inr ⟨by rw [hturns, hts], last, List.mem_getLast?_cons hlast, hwaits⟩

/-- A step that suspends the run in the loop is the last one, if its task waits in the end. -/
theorem Takes.of_stillWaits (h : u.StillWaits p e) {ts : List Turn} (hts : turns p here [u] = ts)
    (hgoal : ts <+: goal) : Takes p e l here goal [u] :=
  ⟨ts, hgoal, .inr ⟨hts, u, rfl, h⟩⟩

/-- While something stands above the frame of the loop, it is not its turn. -/
theorem turn?_of_above {f : Frame} {above : Stack} {done yieldedAt : Nat}
    (h : u.stack = f :: above ++ l.frame done yieldedAt :: here) : u.turn? p here = none := by
  rw [RunStep.turn?, if_neg]
  simp only [h, List.length_append, List.length_cons]
  omega

section
variable {done yieldedAt : Nat} (h : u.stack = l.frame done yieldedAt :: here)
include h

theorem leave_of_over (hover : l.limit p ≤ done ∨ l.goesOn u.state = false) :
    u.progress p = .running here u.state ∧ u.turn? p here = some .leave := by
  have hprogress : u.progress p = .running here u.state := by
    rw [RunStep.progress, h, advance_loop, if_pos hover]
  exact ⟨hprogress, by simp [RunStep.turn?, h, hprogress]⟩

theorem yield_of_yieldsAt (hgo : ¬(l.limit p ≤ done ∨ l.goesOn u.state = false))
    (hyield : Limits.yieldsAt p.limits.loopYieldInterval done yieldedAt = true) :
    u.progress p = .suspended (.atFrame (Number.countUp u.moment.frame 1))
      (l.frame done done :: here) u.state ∧
      u.turn? p here = some .yield := by
  have hprogress : u.progress p =
      .suspended (.atFrame (Number.countUp u.moment.frame 1))
        (l.frame done done :: here) u.state := by
    rw [RunStep.progress, h, advance_loop, if_neg hgo, if_pos hyield]
  exact ⟨hprogress, by simp [RunStep.turn?, h, hprogress]⟩

theorem start_of_not_yieldsAt (hgo : ¬(l.limit p ≤ done ∨ l.goesOn u.state = false))
    (hyield : Limits.yieldsAt p.limits.loopYieldInterval done yieldedAt = false) :
    u.progress p = .running (.begin l.body :: l.frame (done + 1) yieldedAt :: here) u.state ∧
      u.turn? p here = some .start := by
  have hprogress : u.progress p =
      .running (.begin l.body :: l.frame (done + 1) yieldedAt :: here) u.state := by
    rw [RunStep.progress, h, advance_loop, if_neg hgo, hyield]
    rfl
  have hlong : ¬here.length + 1 + 1 ≤ here.length := by omega
  exact ⟨hprogress, by
    simp only [RunStep.turn?, h, hprogress, List.length_cons, if_pos, if_neg hlong]⟩

end

/-- A step with the frame of the loop on its stack is a step inside of the loop. -/
theorem isIn_of_stack {above : Stack} {done yieldedAt : Nat}
    (h : u.stack = above ++ l.frame done yieldedAt :: here) :
    u.IsIn p l here := by
  cases above with
  | cons f above =>
    have hturn : u.turn? p here = none := turn?_of_above h
    refine ⟨⟨_, _, _, h⟩, ?_, ?_, ?_⟩ <;> simp [hturn]
  | nil =>
    by_cases hover : l.limit p ≤ done ∨ l.goesOn u.state = false
    · obtain ⟨hprogress, hturn⟩ := leave_of_over h hover
      exact ⟨⟨_, _, _, h⟩, by simp [hturn], by simp [hturn], fun _ => ⟨_, hprogress⟩⟩
    · have hholds : l.goesOn u.state = true := by simpa using fun hfails => hover (.inr hfails)
      cases hyield : Limits.yieldsAt p.limits.loopYieldInterval done yieldedAt with
      | true =>
        obtain ⟨hprogress, hturn⟩ := yield_of_yieldsAt h hover hyield
        exact ⟨⟨_, _, _, h⟩, by simp [hturn], fun _ => ⟨_, _, hprogress⟩, by simp [hturn]⟩
      | false =>
        obtain ⟨hprogress, hturn⟩ := start_of_not_yieldsAt h hover hyield
        exact ⟨⟨_, _, _, h⟩, fun _ => ⟨hholds, _, _, hprogress⟩, by simp [hturn], by simp [hturn]⟩

theorem Lifetime.nil (u : RunStep) (later : List RunStep) : Lifetime p l here u later [] :=
  ⟨List.nil_sublist later, List.isChain_singleton u, by simp⟩

theorem Lifetime.cons {u' : RunStep} {between later life : List RunStep}
    (h : Lifetime p l here u' later life) (hfollows : u.Follows p u') (hin : u'.IsIn p l here) :
    Lifetime p l here u (between ++ u' :: later) (u' :: life) where
  sublist := (h.sublist.cons_cons u').trans (List.sublist_append_right _ _)
  follows := List.isChain_cons_cons.2 ⟨hfollows, h.follows⟩
  isIn := List.forall_mem_cons.2 ⟨hin, h.isIn⟩

end

namespace Engine.Traced
variable {e : Engine} {d : Document} {w : World} {beats : List Beat} {frames : List (List RunStep)}

theorem continued_running (h : e.Traced d w beats frames)
    {earlier later : List RunStep} {u : RunStep} (hus : frames.flatten = earlier ++ u :: later)
    {stack : Stack} {s : State} (hprogress : u.progress (e.programOf d) = .running stack s) :
    ∃ u' ∈ later, u.Follows (e.programOf d) u' ∧ u'.stack = stack := by
  have hwaiting : u.waiting? (e.programOf d) = none := by
    simp only [RunStep.waiting?, hprogress]
  rcases h.continued hus with ⟨s', hover⟩ | ⟨u', hu', hfollows⟩ | ⟨t, hwaits, -⟩
  · simp [hprogress] at hover
  · refine ⟨u', hu', hfollows, ?_⟩
    cases hfollows.continues with
    | running hstep _ _ =>
      rw [hprogress] at hstep
      cases hstep
      rfl
    | resumed hwaits _ _ _ => simp [hwaiting] at hwaits
  · simp [hwaiting] at hwaits

theorem continued_suspended (h : e.Traced d w beats frames)
    {earlier later : List RunStep} {u : RunStep} (hus : frames.flatten = earlier ++ u :: later)
    {wake : Wake} {stack : Stack} {s : State}
    (hprogress : u.progress (e.programOf d) = .suspended wake stack s) :
    (∃ u' ∈ later, u.Follows (e.programOf d) u' ∧ u'.stack = stack) ∨
      u.StillWaits (e.programOf d) (e.play d w beats).1 := by
  rcases h.continued hus with ⟨s', hover⟩ | ⟨u', hu', hfollows⟩ | hwaits
  · simp [hprogress] at hover
  · refine .inl ⟨u', hu', hfollows, ?_⟩
    cases hfollows.continues with
    | running hstep _ _ => simp [hprogress] at hstep
    | resumed hwaits _ hstack _ =>
      simp only [RunStep.waiting?, hprogress, Option.some.injEq] at hwaits
      rw [hstack, ← hwaits]
  · exact .inr hwaits

/-- From each step inside of a loop, the run stays in the loop until it has taken the turns that
were left, or the play ends. The induction is on the steps of the play that come later. A step above
the loop leaves its frame and its counters alone, and handing control back may be the last that the
play sees of it. -/
theorem exists_takes (h : e.Traced d w beats frames) (l : Loop) (here : Stack)
    {earlier later : List RunStep} {u : RunStep} (hus : frames.flatten = earlier ++ u :: later)
    {above : Stack} {done yieldedAt : Nat}
    (hstack : u.stack = above ++ l.frame done yieldedAt :: here) :
    ∃ life, Lifetime (e.programOf d) l here u later life ∧
      Takes (e.programOf d) (e.play d w beats).1 l here
        (turnsLeft e.limits.loopYieldInterval (l.limit (e.programOf d) - done) done yieldedAt)
          (u :: life) := by
  induction hn : later.length using Nat.strongRecOn generalizing
    earlier later u above done yieldedAt with
  | ind n ih =>
  subst hn
  have hlater : ∀ (above : Stack) {done yieldedAt : Nat},
      (∃ u' ∈ later, u.Follows (e.programOf d) u' ∧
        u'.stack = above ++ l.frame done yieldedAt :: here) →
      ∃ life, Lifetime (e.programOf d) l here u later life ∧
        Takes (e.programOf d) (e.play d w beats).1 l here
          (turnsLeft e.limits.loopYieldInterval (l.limit (e.programOf d) - done) done yieldedAt)
            life := by
    rintro above done yieldedAt ⟨u', hu', hfollows, hstack'⟩
    obtain ⟨between, rest, rfl⟩ := List.append_of_mem hu'
    have hus' : frames.flatten = (earlier ++ u :: between) ++ u' :: rest := by simp [hus]
    have hfewer : rest.length < (between ++ u' :: rest).length := by
      simp only [List.length_append, List.length_cons]
      omega
    obtain ⟨life, hlife, htakes⟩ := ih rest.length hfewer hus' hstack' rfl
    exact ⟨u' :: life, hlife.cons hfollows (isIn_of_stack hstack'), htakes⟩
  cases above with
  | cons f above =>
    have hturn : u.turn? (e.programOf d) here = none := turn?_of_above hstack
    have hprogress := @advance_cons (e.programOf d) u.moment u.entry.origin none f
      (above ++ l.frame done yieldedAt :: here) u.state
    rw [← List.cons_append, ← hstack] at hprogress
    rcases hprogress with ⟨new, s, hrun⟩ | ⟨wake, new, s, hsuspend⟩
    · rw [← List.append_assoc] at hrun
      obtain ⟨life, hlife, htakes⟩ := hlater _ (h.continued_running hus hrun)
      exact ⟨life, hlife, htakes.cons_of_none hturn⟩
    · rw [← List.append_assoc] at hsuspend
      rcases h.continued_suspended hus hsuspend with hgo | hwaits
      · obtain ⟨life, hlife, htakes⟩ := hlater _ hgo
        exact ⟨life, hlife, htakes.cons_of_none hturn⟩
      · have hturns : turns (e.programOf d) here [u] = [] := List.filterMap_cons_none hturn
        exact ⟨[], .nil u later, .of_stillWaits hwaits hturns List.nil_prefix⟩
  | nil =>
    by_cases hover : l.limit (e.programOf d) ≤ done ∨ l.goesOn u.state = false
    · obtain ⟨-, hturn⟩ := leave_of_over hstack hover
      have hturns : turns (e.programOf d) here [u] = [] ++ [.leave] :=
        List.filterMap_cons_some hturn
      refine ⟨[], .nil u later, [], List.nil_prefix, .inl ⟨hturns, u, rfl, hturn, ?_⟩⟩
      rcases hover with hdone | hfails
      · right
        rw [Nat.sub_eq_zero_of_le hdone]
        rfl
      · exact .inl hfails
    · obtain ⟨rounds, hrounds⟩ : ∃ rounds, l.limit (e.programOf d) - done = rounds + 1 :=
        ⟨l.limit (e.programOf d) - done - 1, by omega⟩
      cases hyield : Limits.yieldsAt e.limits.loopYieldInterval done yieldedAt with
      | true =>
        obtain ⟨hprogress, hturn⟩ :=
          @yield_of_yieldsAt (e.programOf d) l here u done yieldedAt hstack hover hyield
        rw [hrounds, turnsLeft_of_yieldsAt rounds hyield, ← hrounds]
        rcases h.continued_suspended hus hprogress with hgo | hwaits
        · obtain ⟨life, hlife, htakes⟩ := hlater [] hgo
          exact ⟨life, hlife, htakes.cons_of_some hturn⟩
        · have hturns : turns (e.programOf d) here [u] = [.yield] := List.filterMap_cons_some hturn
          have hprefix := (List.prefix_cons_inj Turn.yield).2 (List.nil_prefix (l := turnsLeft
            e.limits.loopYieldInterval (l.limit (e.programOf d) - done) done done))
          exact ⟨[], .nil u later, .of_stillWaits hwaits hturns hprefix⟩
      | false =>
        obtain ⟨hprogress, hturn⟩ :=
          @start_of_not_yieldsAt (e.programOf d) l here u done yieldedAt hstack hover hyield
        have hless : l.limit (e.programOf d) - (done + 1) = rounds := by omega
        rw [hrounds, turnsLeft_of_not_yieldsAt rounds hyield, ← hless]
        obtain ⟨life, hlife, htakes⟩ := hlater [_] (h.continued_running hus hprogress)
        exact ⟨life, hlife, htakes.cons_of_some hturn⟩

/-- The run of a step that begins a loop stays in the loop until it has taken the turns of the
schedule. -/
theorem exists_lifetime (h : e.Traced d w beats frames) (l : Loop) (here : Stack)
    {earlier later : List RunStep} {u : RunStep} (hus : frames.flatten = earlier ++ u :: later)
    (hbegins : u.progress (e.programOf d) = .running (l.frame 0 0 :: here) u.state) :
    ∃ life, Lifetime (e.programOf d) l here u later life ∧
      Takes (e.programOf d) (e.play d w beats).1 l here
        (schedule e.limits.loopYieldInterval (l.limit (e.programOf d))) life := by
  obtain ⟨u', hu', hfollows, hstack⟩ := h.continued_running hus hbegins
  obtain ⟨between, rest, rfl⟩ := List.append_of_mem hu'
  have hus' : frames.flatten = (earlier ++ u :: between) ++ u' :: rest := by simp [hus]
  have hfirst : u'.stack = [] ++ l.frame 0 0 :: here := hstack
  obtain ⟨life, hlife, htakes⟩ := h.exists_takes l here hus' hfirst
  rw [Nat.sub_zero, turnsLeft_eq_schedule] at htakes
  exact ⟨u' :: life, hlife.cons hfollows (isIn_of_stack hfirst), htakes⟩

end Engine.Traced

/-- In every play, each counted loop that is begun takes the turns of its schedule and is left then.
Each conditional loop starts its body only while its condition holds and at most as often as the
ceiling says, and is left when the condition fails or the ceiling is reached. Either loop may still
be there, with its task waiting, when the play ends. -/
theorem Engine.play_accounts_for_loops (e : Engine) (d : Document) (w : World) (beats : List Beat) :
    ∃ frames, e.Traced d w beats frames ∧
      (∀ i us, frames[i]? = some us → ∀ u ∈ us, u.moment.frame = min i Number.counterMax) ∧
      ∀ earlier u later, frames.flatten = earlier ++ u :: later →
        (∀ times body rest isCall below, u.stack =
          .sequence (.repeatTimes times body :: rest) isCall :: below →
          let here : Stack := .sequence rest isCall :: below
          let rounds := min times e.limits.loopCeiling
          ∃ life, Lifetime (e.programOf d) (.counted rounds body) here u later life ∧
            ((turns (e.programOf d) here life =
              schedule e.limits.loopYieldInterval rounds ++ [.leave] ∧
                (turns (e.programOf d) here life).count .start = rounds) ∨
              (turns (e.programOf d) here life <+: schedule e.limits.loopYieldInterval rounds ∧
                EndsWaiting (e.programOf d) (e.play d w beats).1 life))) ∧
        ∀ c body rest isCall below, u.stack =
          .sequence (.repeatWhile c body :: rest) isCall :: below →
          let here : Stack := .sequence rest isCall :: below
          ∃ life, Lifetime (e.programOf d) (.conditional c body) here u later life ∧
            (∀ v ∈ life, v.turn? (e.programOf d) here = some .start → v.state.holds c = true) ∧
            (turns (e.programOf d) here life).count .start ≤ e.limits.loopCeiling ∧
            ((∃ v, life.getLast? = some v ∧ v.turn? (e.programOf d) here = some .leave ∧
                (v.state.holds c = false ∨
                  (turns (e.programOf d) here life).count .start = e.limits.loopCeiling)) ∨
              EndsWaiting (e.programOf d) (e.play d w beats).1 life) := by
  obtain ⟨frames, hframes⟩ := e.exists_traced d w beats
  refine ⟨frames, hframes, hframes.moment_eq.2.2, fun earlier u later hus => ⟨?_, ?_⟩⟩
  · intro times body rest isCall below hstack
    have hbegins : u.progress (e.programOf d) =
        .running ((Loop.counted (min times e.limits.loopCeiling) body).frame 0 0 ::
          .sequence rest isCall :: below)
          u.state := by
      rw [RunStep.progress, hstack]
      rfl
    obtain ⟨life, hlife, ts, hprefix, hend⟩ := hframes.exists_lifetime _ _ hus hbegins
    refine ⟨life, hlife, ?_⟩
    rcases hend with ⟨hturns, v, -, -, hover⟩ | ⟨hturns, hwaits⟩
    · obtain rfl : ts = schedule e.limits.loopYieldInterval (min times e.limits.loopCeiling) :=
        hover.resolve_left (by simp [Loop.goesOn])
      refine .inl ⟨hturns, ?_⟩
      rw [hturns, List.count_append, count_start_schedule]
      rfl
    · exact .inr ⟨hturns ▸ hprefix, hwaits⟩
  · intro c body rest isCall below hstack
    have hbegins : u.progress (e.programOf d) =
        .running ((Loop.conditional c body).frame 0 0 :: .sequence rest isCall ::
          below) u.state := by
      rw [RunStep.progress, hstack]
      rfl
    obtain ⟨life, hlife, ts, hprefix, hend⟩ := hframes.exists_lifetime _ _ hus hbegins
    refine ⟨life, hlife, fun v hv hstart => ((hlife.isIn v hv).starts hstart).1, ?_⟩
    have hgoal : (schedule e.limits.loopYieldInterval e.limits.loopCeiling).count .start =
        e.limits.loopCeiling :=
      count_start_schedule _ _
    have hcount : ts.count .start ≤ e.limits.loopCeiling :=
      hgoal ▸ hprefix.sublist.count_le Turn.start
    have hstarts : (turns (e.programOf d) (.sequence rest isCall :: below) life).count .start =
        ts.count .start := by
      rcases hend with ⟨hturns, -⟩ | ⟨hturns, -⟩
      · rw [hturns, List.count_append]
        rfl
      · rw [hturns]
    rw [hstarts]
    refine ⟨hcount, ?_⟩
    rcases hend with ⟨-, v, hlast, hleave, hover⟩ | ⟨-, hwaits⟩
    · refine .inl ⟨v, hlast, hleave, hover.imp_right fun hall => ?_⟩
      rw [hall]
      exact hgoal
    · exact .inr hwaits

end BlockStudio.Script
