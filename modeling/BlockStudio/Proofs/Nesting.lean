import BlockStudio.Proofs.Announcements
import BlockStudio.Proofs.Bindings

/-!
How deep calls and watchers nest. The nesting of an agenda counts the writes whose watchers are
still to be started, so each write that is over gives back what it took, and a run pushes a call
only below the limit. Main statement: neither goes over the limit of the program anywhere in a play,
a write below the limit starts every watcher of its variable once and in order before the writer
goes on, and at the limit a write or a call is refused with one fault.
-/
namespace BlockStudio.Script

/-- What a step leaves of a stack. -/
def Progress.stack : Progress → Stack
  | .finished _ => []
  | .suspended _ stack _ => stack
  | .running stack _ => stack

section
variable {p : Program} {m : Moment} {cascade : Cascade} {origin : String}

theorem callDepth_act_le (a : Action) {here : Stack} (s : State)
    (h : callDepth here ≤ p.limits.maxCallDepth) :
    callDepth (act p m cascade origin a here s).stack ≤ p.limits.maxCallDepth := by
  cases a with
  | call name =>
    simp only [act]
    split
    · exact h
    · split
      · rename_i hdeep
        simp only [Progress.stack, callDepth_sequence, Bool.toNat_true]
        omega
      · exact h
  | whenTrue c body =>
    simp only [act, Progress.stack]
    split
    · simpa [Frame.begin] using h
    · exact h
  | chance percent body =>
    simp only [act, Progress.stack]
    split
    · simpa [Frame.begin] using h
    · exact h
  | _ => simpa [act, Progress.stack, Frame.begin] using h

/-- A step calls only below the limit. -/
theorem callDepth_advance_le {stack : Stack} (s : State)
    (h : callDepth stack ≤ p.limits.maxCallDepth) :
    callDepth (advance p m cascade origin stack s).stack ≤ p.limits.maxCallDepth := by
  unfold advance
  split
  · exact Nat.zero_le _
  · rw [callDepth_sequence] at h
    exact Nat.le_trans (Nat.le_add_left _ _) h
  · exact callDepth_act_le _ s (by simpa using h)
  · rw [callDepth_counted] at h
    split
    · exact h
    · split <;> simpa [Progress.stack, Frame.begin] using h
  · rw [callDepth_conditional] at h
    split
    · exact h
    · split <;> simpa [Progress.stack, Frame.begin] using h

end

namespace Duty

/-- Whether the duty is to start the watchers of a write. -/
def isWatch : Duty → Bool
  | .watch .. => true
  | _ => false

/-- The stacks of the tasks that the duty goes on with or looks at. -/
def taskStacks : Duty → List Stack
  | .run _ stack => [stack]
  | .resume waiting => waiting.map (·.stack)
  | _ => []

end Duty

namespace Agenda

/-- The stacks of all tasks, running or waiting. -/
def taskStacks (a : Agenda) : List Stack :=
  a.duties.flatMap Duty.taskStacks ++ (a.kept ++ a.state.pending).map (·.stack)

/-- Watchers and calls nest no deeper than the limit of the program. -/
structure IsBounded (p : Program) (a : Agenda) : Prop where
  /-- The nesting counts the writes whose watchers are not over. -/
  nesting_eq : a.nesting = a.duties.countP Duty.isWatch
  nesting_le : a.nesting ≤ p.limits.maxCallDepth
  callDepth_le : ∀ stack ∈ a.taskStacks, callDepth stack ≤ p.limits.maxCallDepth

section
variable {p : Program} {m : Moment} {a : Agenda}

theorem mem_taskStacks {stack : Stack} : stack ∈ a.taskStacks ↔
    (∃ duty ∈ a.duties, stack ∈ duty.taskStacks) ∨ (∃ t ∈ a.kept, t.stack = stack) ∨
      ∃ t ∈ a.state.pending, t.stack = stack := by
  simp only [taskStacks, List.mem_append, List.mem_flatMap, List.mem_map, or_and_right, exists_or]

theorem mem_taskStacks_leave {entry : Entry} {rest : Option (Wake × Stack)} {stack : Stack}
    (h : stack ∈ (a.leave entry rest).taskStacks) :
    stack ∈ a.taskStacks ∨ ∃ wake, rest = some (wake, stack) := by
  rw [mem_taskStacks, duties_leave] at h
  rw [mem_taskStacks]
  cases entry with
  | resumed t =>
    rcases h with hduty | ⟨u, hu, rfl⟩ | hpending
    · exact .inl (.inl hduty)
    · rcases List.mem_append.1 hu with hold | hleft
      · exact .inl (.inr (.inl ⟨u, hold, rfl⟩))
      · obtain ⟨⟨wake, _⟩, hrest, rfl⟩ := Option.map_eq_some_iff.1 (Option.mem_toList.1 hleft)
        exact .inr ⟨wake, hrest⟩
    · exact .inl (.inr (.inr hpending))
  | launched id origin actions =>
    rcases h with hduty | hkept | ⟨u, hu, rfl⟩
    · exact .inl (.inl hduty)
    · exact .inl (.inr (.inl hkept))
    · cases rest with
      | none => exact .inl (.inr (.inr ⟨u, hu, rfl⟩))
      | some rest =>
        rcases List.mem_append.1 hu with hold | hleft
        · exact .inl (.inr (.inr ⟨u, hold, rfl⟩))
        · exact .inr ⟨rest.1, by rw [List.mem_singleton.1 hleft]⟩

theorem mem_taskStacks_cons {duty : Duty} {duties : List Duty} {nesting : Nat}
    {kept : List Task} {ran : List Ran} {s : State} {stack : Stack} :
    stack ∈ taskStacks ⟨duty :: duties, nesting, kept, ran, s⟩ ↔
      stack ∈ duty.taskStacks ∨ stack ∈ taskStacks ⟨duties, nesting, kept, ran, s⟩ := by
  simp only [taskStacks, List.flatMap_cons, List.append_assoc, List.mem_append]

theorem mem_taskStacks_of_eq {a b : Agenda} {stack : Stack} (h : stack ∈ a.taskStacks)
    (hduties : a.duties = b.duties) (hkept : a.kept = b.kept)
    (hpending : a.state.pending = b.state.pending) : stack ∈ b.taskStacks := by
  rwa [taskStacks, hduties, hkept, hpending] at h

theorem mem_taskStacks_launch {origin : String} {actions : List Action}
    {duties : List Duty} {stack : Stack} (h : stack ∈ (a.launch origin actions duties).taskStacks) :
    callDepth stack = 0 ∨ stack ∈ taskStacks { a with duties } := by
  rcases mem_taskStacks_cons.1 h with hnew | hold
  · exact .inl (by rw [List.mem_singleton.1 hnew]; rfl)
  · exact .inr hold

/-- A round of a run leaves the other stacks as they are, and what its step leaves of its own. -/
theorem mem_taskStacks_goOn {entry : Entry} {stack stack' : Stack} {duties : List Duty}
    (h : stack ∈ (a.goOn p m entry stack' duties).taskStacks) :
    stack ∈ taskStacks { a with duties } ∨
    stack = (advance p m none entry.origin stack' a.state).stack := by
  obtain ⟨_, nesting, kept, ran, s⟩ := a
  have hpending : (advance p m none entry.origin stack' s).state.pending = s.pending :=
    (advance_none_tasks stack' s).1
  rcases goOn_cases p m ⟨_, nesting, kept, ran, s⟩ entry stack' duties with ⟨w, hw, hgoOn⟩ | hgoOn
  · have hadvance : advance p m none entry.origin stack' s =
        .running w.stack (write p m none entry.origin w.name w.value s) :=
      (advance_of_watchedWrite? none hw).2
    rw [hgoOn, mem_taskStacks_cons, mem_taskStacks_cons] at h
    rcases h with hwatch | hrun | hold
    · contradiction
    · right
      rw [List.mem_singleton.1 hrun, hadvance]
      rfl
    · exact .inl (mem_taskStacks_of_eq hold rfl rfl (State.pending_store _ _ _))
  · rw [hgoOn] at h
    dsimp only at h ⊢
    cases hresult : advance p m none entry.origin stack' s with
    | running stack₁ s₁ =>
      rw [hresult] at h hpending
      rcases mem_taskStacks_cons.1 h with hrun | hold
      · exact .inr (List.mem_singleton.1 hrun)
      · exact .inl (mem_taskStacks_of_eq hold rfl rfl hpending)
    | suspended wake stack₁ s₁ =>
      rw [hresult] at h hpending
      rcases mem_taskStacks_leave h with hold | ⟨wake', hrest⟩
      · exact .inl (mem_taskStacks_of_eq hold rfl rfl hpending)
      · cases hrest
        exact .inr rfl
    | finished s₁ =>
      rw [hresult] at h hpending
      rcases mem_taskStacks_leave h with hold | ⟨wake', hrest⟩
      · exact .inl (mem_taskStacks_of_eq hold rfl rfl hpending)
      · contradiction

/-- The stacks after a step were there before it, or are inside of no call, or are what a step of a
run leaves. -/
theorem mem_taskStacks_next {stack : Stack} (h : stack ∈ (a.next p m).taskStacks) :
    stack ∈ a.taskStacks ∨ callDepth stack = 0 ∨ ∃ entry stack', .run entry stack' ∈ a.duties ∧
      stack = (advance p m none entry.origin stack' a.state).stack := by
  obtain ⟨duties, nesting, kept, ran, s⟩ := a
  cases duties with
  | nil => exact .inl h
  | cons duty duties =>
    rw [mem_taskStacks_cons]
    cases duty with
    | run entry stack' =>
      rcases mem_taskStacks_goOn h with hold | hstep
      · exact .inl (.inr hold)
      · exact .inr (.inr ⟨entry, stack', List.mem_cons_self, hstep⟩)
    | watch name lists =>
      cases lists with
      | nil => exact .inl (.inr h)
      | cons actions lists => exact (mem_taskStacks_launch h).symm.imp .inr .inl
    | start announced lists =>
      cases lists with
      | nil => exact .inl (.inr h)
      | cons e lists =>
        rcases mem_taskStacks_launch h with hnew | hold
        · exact .inr (.inl hnew)
        · rcases mem_taskStacks_cons.1 hold with hnone | hold
          · contradiction
          · refine .inl (.inr (mem_taskStacks_of_eq hold rfl rfl ?_))
            cases announced <;> simp
    | resume waiting =>
      left
      cases waiting with
      | nil =>
        simp only [next, mem_taskStacks, List.mem_mergeSort, List.mem_append, or_and_right,
          exists_or, List.not_mem_nil, false_and, exists_false, false_or] at h
        exact .inr (mem_taskStacks.2 h)
      | cons t waiting =>
        simp only [next] at h
        split at h <;>
          simp only [mem_taskStacks, List.mem_cons, Duty.taskStacks, List.map_cons] at h ⊢ <;> grind
    | look =>
      left
      simp only [next, mem_taskStacks, List.mem_cons, Duty.taskStacks] at h ⊢
      grind
    | _ => exact .inl (.inr h)

theorem nesting_leave (a : Agenda) (entry : Entry) (rest : Option (Wake × Stack)) :
    (a.leave entry rest).nesting = a.nesting := by
  cases entry <;> rfl

/-- A write that starts watchers takes one level, below the limit, and gives it back when they are
over. -/
theorem nesting_next (h : a.nesting = a.duties.countP Duty.isWatch)
    (hle : a.nesting ≤ p.limits.maxCallDepth) :
    (a.next p m).nesting = (a.next p m).duties.countP Duty.isWatch ∧
      (a.next p m).nesting ≤ p.limits.maxCallDepth := by
  obtain ⟨duties, nesting, kept, ran, s⟩ := a
  cases duties with
  | nil => exact ⟨h, hle⟩
  | cons duty duties =>
    rw [List.countP_cons] at h
    dsimp only at h hle
    cases duty with
    | run entry stack =>
      cases hw : (if nesting < p.limits.maxCallDepth then watchedWrite? p s stack else none) with
      | some w =>
        obtain ⟨hdeep, hwatched⟩ : nesting < p.limits.maxCallDepth ∧
            watchedWrite? p s stack = some w := by
          simpa using hw
        rw [next_run_of_watched duties kept ran hdeep hwatched]
        exact ⟨by simpa [List.countP_cons, Duty.isWatch] using h, hdeep⟩
      | none =>
        rw [next_run_of_unwatched duties kept ran hw]
        cases advance p m none entry.origin stack s with
        | running stack' s' => exact ⟨h, hle⟩
        | suspended wake stack' s' => simp only [nesting_leave, duties_leave]; exact ⟨h, hle⟩
        | finished s' => simp only [nesting_leave, duties_leave]; exact ⟨h, hle⟩
    | watch name lists =>
      cases lists with
      | nil =>
        have hover : nesting - 1 = duties.countP Duty.isWatch := by rw [h]; rfl
        exact ⟨hover, Nat.le_trans (Nat.sub_le _ _) hle⟩
      | cons actions lists =>
        refine ⟨?_, hle⟩
        simpa [Agenda.next, launch, State.takeTaskId, List.countP_cons, Duty.isWatch] using h
    | start announced lists => cases lists <;> exact ⟨h, hle⟩
    | resume waiting =>
      cases waiting with
      | nil => exact ⟨h, hle⟩
      | cons t waiting =>
        simp only [next]
        split <;> exact ⟨h, hle⟩
    | _ => exact ⟨h, hle⟩

theorem IsBounded.next (h : a.IsBounded p) (m : Moment) : (a.next p m).IsBounded p := by
  obtain ⟨hnesting, hle⟩ := nesting_next (m := m) h.nesting_eq h.nesting_le
  refine ⟨hnesting, hle, fun stack hstack => ?_⟩
  rcases mem_taskStacks_next hstack with hold | hzero | ⟨entry, stack', hrun, rfl⟩
  · exact h.callDepth_le stack hold
  · omega
  · exact callDepth_advance_le a.state
      (h.callDepth_le stack' (mem_taskStacks.2 (.inl ⟨_, hrun, List.mem_cons_self⟩)))

end

end Agenda

/-- The watchers of a write have their turns: each of the lists is started once, and its run is over
or waits before the next list is started. Then nothing is left of the write. -/
inductive InTurn (p : Program) (m : Moment) (name : String) (below : List Duty) :
    List (List Action) → Agenda → List Agenda → Agenda → Prop
  | over {a : Agenda} (ha : a.duties = .watch name [] :: below) :
    InTurn p m name below [] a [a] (a.next p m)
  | next {a c b : Agenda} {actions : List Action} {lists : List (List Action)} {bs as : List Agenda}
    (ha : a.duties = .watch name (actions :: lists) :: below)
    (hrun : Course p m
      (({ a with duties := [] } : Agenda).launch (Trigger.changeLabel name) actions []) bs c)
    (hstate : c.state =
      launch p m (cascadeOf p m (p.limits.maxCallDepth - a.nesting))
        (Trigger.changeLabel name) actions a.state)
    (hrest : InTurn p m name below lists (c.before (.watch name lists :: below)) as b) :
    InTurn p m name below (actions :: lists) a
      (a :: bs.map (·.before (.watch name lists :: below)) ++ as) b

section
variable {p : Program} {m : Moment} {a c : Agenda} {as : List Agenda}

/-- The watchers of a write have their turns before the duties behind them come. The first list runs
until its task is over or waits; then the duty has the others left. -/
theorem Course.exists_inTurn {name : String} {lists : List (List Action)} {below : List Duty}
    {depth nesting : Nat} (hdepth : p.limits.maxCallDepth - (nesting + 1) = depth)
    {kept : List Task} {ran : List Ran} {s : State}
    (h : Course p m ⟨.watch name lists :: below, nesting + 1, kept, ran, s⟩ as c) :
    ∃ turns rest b, as = turns ++ rest ∧
      InTurn p m name below lists ⟨.watch name lists :: below, nesting + 1, kept, ran, s⟩ turns b ∧
      Course p m b rest c ∧ b.duties = below ∧ b.nesting = nesting ∧
      b.state =
        lists.foldl (fun s actions => launch p m (cascadeOf p m depth)
          (Trigger.changeLabel name) actions s) s := by
  induction lists generalizing as ran s with
  | nil =>
    cases h with
    | done h => contradiction
    | next _ hrest => exact ⟨[_], _, _, rfl, .over rfl, hrest, rfl, rfl, rfl⟩
  | cons actions lists ih =>
    cases h with
    | done h => contradiction
    | next _ hrest =>
      obtain ⟨ran₁, hreach⟩ :=
        reaches_launch (runReaches depth (nesting + 1) hdepth) (Trigger.changeLabel name)
          actions [] kept ran s
      obtain ⟨bs, rest, rfl, hbs, hrest⟩ := split
        (a := Agenda.launch ⟨[], nesting + 1, kept, ran, s⟩ (Trigger.changeLabel name) actions [])
        (.watch name lists :: below) hrest hreach rfl
      obtain ⟨turns, rest, b, rfl, hturns, hrest, hduties, hnesting, hstate⟩ := ih hrest
      refine ⟨_, rest, b, ?_, .next rfl hbs ?_ hturns, hrest, hduties, hnesting, hstate⟩
      · simp only [List.cons_append, List.append_assoc]
      · subst hdepth
        rfl

/-- A write to a variable, of which `lists` are the watchers, stores the value. Below the limit the
watchers have their turns before the writer goes on, as deep as it was; at the limit none of them
starts, and there is a fault. -/
structure Agenda.Writes (p : Program) (m : Moment) (lists : List (List Action)) (a : Agenda)
    (later : List Agenda) (n : NextAction) (name : String) (value : Float) : Prop where
  stored : (a.next p m).state.variableValues.get? name = some value
  unwatched :
    lists = [] → a.next p m = { a with duties := n.after, state := a.state.store name value }
  watched : lists ≠ [] → a.nesting < p.limits.maxCallDepth →
    (a.next p m).nesting = a.nesting + 1 ∧ ∃ turns b rest, later = turns ++ b :: rest ∧
      InTurn p m name n.after lists (a.next p m) turns b ∧ b.duties = n.after ∧
      b.nesting = a.nesting ∧
      b.state = write p m (cascadeOf p m (p.limits.maxCallDepth - a.nesting)) n.entry.origin
        name value a.state
  refused : lists ≠ [] → p.limits.maxCallDepth ≤ a.nesting →
    a.next p m = { a with
        duties := n.after
        state := (a.state.store name value).fault m n.entry.origin .setVar
          ("watcher cascade limit reached on '" ++ name ++ "'") } ∧
      a.recorded p m =
        [⟨n.entry.origin, .setVar, "watcher cascade limit reached on '" ++ name ++ "'", m.frame⟩]

/-- A call is refused: there is a fault, nothing of the function runs, and the caller goes on. -/
structure Agenda.RefusesCall (p : Program) (m : Moment) (a : Agenda) (n : NextAction)
    (name : String) : Prop where
  next_eq : a.next p m = { a with
    duties := n.after
    state := a.state.fault m n.entry.origin .callFunc
      ("call depth limit reached calling '" ++ name ++ "'") }
  recorded_eq : a.recorded p m =
    [⟨n.entry.origin, .callFunc, "call depth limit reached calling '" ++ name ++ "'", m.frame⟩]

theorem State.get?_store (s : State) (name : String) (value : Float) :
    (s.store name value).variableValues.get? name = some value := by
  simp only [State.store]
  split <;> simp

namespace Agenda

theorem recorded_of_fault {n : NextAction} {s : State} {f : Fault}
    (h : a.unlogged.next p m = { a.unlogged with duties := n.after, state := s })
    (hs : s.faults = .push .empty f) :
    a.recorded p m = [f] := by
  rw [recorded, h]
  change s.faults.entries = [f]
  rw [hs]
  exact BoundedLog.entries_foldl_push_empty (by decide) (some f)

section
variable {n : NextAction} {x : Effect} {name : String} {value : Float} {lists : List (List Action)}

theorem act_of_write? {s : State} (haction : n.action = .effect x)
    (hwrite : x.write? s = some (name, value)) :
    act p m none n.entry.origin n.action n.stack s =
      .running n.stack (write p m none n.entry.origin name value s) := by
  rw [haction, act, perform_of_write? none hwrite]

theorem next_of_unwatched (h : a.action? = some n) (haction : n.action = .effect x)
    (hwrite : x.write? a.state = some (name, value)) (hlists : p.watchers.get? name = none) :
    a.next p m = { a with duties := n.after, state := a.state.store name value } := by
  refine next_of_action? h (fun e name' value' he hw _ => ?_) ?_
  · obtain rfl : x = e := Action.effect.inj (haction.symm.trans he)
    obtain ⟨rfl, -⟩ := Prod.mk.inj (Option.some.inj (hw.symm.trans hwrite))
    exact hlists
  · rw [act_of_write? haction hwrite, write, hlists]

theorem next_of_refused (h : a.action? = some n) (haction : n.action = .effect x)
    (hwrite : x.write? a.state = some (name, value)) (hlists : p.watchers.get? name = some lists)
    (hdeep : p.limits.maxCallDepth ≤ a.nesting) :
    a.next p m = { a with
      duties := n.after
      state := (a.state.store name value).fault m n.entry.origin .setVar
        ("watcher cascade limit reached on '" ++ name ++ "'") } := by
  refine next_of_action? h (fun _ _ _ _ _ hlt => absurd hlt (Nat.not_lt.2 hdeep)) ?_
  rw [act_of_write? haction hwrite, write, hlists]

theorem next_of_watched (h : a.action? = some n) (haction : n.action = .effect x)
    (hwrite : x.write? a.state = some (name, value)) (hlists : p.watchers.get? name = some lists)
    (hdeep : a.nesting < p.limits.maxCallDepth) :
    a.next p m = ⟨.watch name lists :: n.after, a.nesting + 1, a.kept, a.ran,
      a.state.store name value⟩ := by
  obtain ⟨rest, isCall, below, hduties, hstack⟩ := duties_of_action? h
  obtain ⟨duties, nesting, kept, ran, s⟩ := a
  subst hduties
  rw [NextAction.after, hstack]
  refine next_run_of_watched (w := ⟨name, value, lists, .sequence rest isCall :: below⟩)
    n.duties kept ran hdeep ?_
  simp [watchedWrite?, haction, show x.write? s = _ from hwrite, hlists]

theorem writes (h : a.action? = some n) (haction : n.action = .effect x)
    (hwrite : x.write? a.state = some (name, value))
    (hnone : lists = [] → p.watchers.get? name = none)
    (hsome : lists ≠ [] → p.watchers.get? name = some lists) {later : List Agenda}
    (hcourse : Course p m a (a :: later) c) : a.Writes p m lists later n name value := by
  refine ⟨?_, fun hlists => next_of_unwatched h haction hwrite (hnone hlists),
    fun hlists hdeep => ?_, fun hlists hdeep => ?_⟩
  · by_cases hlists : lists = []
    · rw [next_of_unwatched h haction hwrite (hnone hlists)]
      exact State.get?_store _ _ _
    · rcases Nat.lt_or_ge a.nesting p.limits.maxCallDepth with hdeep | hdeep
      · rw [next_of_watched h haction hwrite (hsome hlists) hdeep]
        exact State.get?_store _ _ _
      · rw [next_of_refused h haction hwrite (hsome hlists) hdeep]
        exact State.get?_store a.state name value
  · cases hcourse with
    | next _ hrest =>
      rw [next_of_watched h haction hwrite (hsome hlists) hdeep] at hrest ⊢
      obtain ⟨turns, rest, b, rfl, hturns, hrest, hduties, hnesting, hstate⟩ :=
        hrest.exists_inTurn rfl
      obtain ⟨less, hless⟩ : ∃ less, p.limits.maxCallDepth - a.nesting = less + 1 :=
        ⟨p.limits.maxCallDepth - a.nesting - 1, by omega⟩
      cases hrest with
      | done hnil =>
        rw [hnil] at hduties
        contradiction
      | next _ _ =>
        refine ⟨rfl, turns, b, _, rfl, hturns, hduties, hnesting, ?_⟩
        rw [hstate, write, hsome hlists, hless, cascadeOf,
          show p.limits.maxCallDepth - (a.nesting + 1) = less by omega]
  · have hunread : x.write? a.unlogged.state = some (name, value) := by
      rw [← hwrite]
      exact x.write?_withUnread a.state _
    refine ⟨next_of_refused h haction hwrite (hsome hlists) hdeep,
      recorded_of_fault (next_of_refused (a := a.unlogged) h haction hunread (hsome hlists) hdeep)
        ?_⟩
    simp only [State.fault, State.store]
    split <;> rfl

end

theorem refusesCall {n : NextAction} {name : String} (h : a.action? = some n)
    (haction : n.action = .call name) (hdefined : p.functions.contains name = true)
    (hdeep : p.limits.maxCallDepth ≤ callDepth n.stack) :
    a.RefusesCall p m n name := by
  obtain ⟨body, hbody⟩ := Option.isSome_iff_exists.1 hdefined
  have hact : ∀ s : State, act p m none n.entry.origin n.action n.stack s = .running n.stack
      (s.fault m n.entry.origin .callFunc
        ("call depth limit reached calling '" ++ name ++ "'")) := by
    intro s
    simp only [haction, act, hbody, if_neg (Nat.not_lt.2 hdeep)]
  have hunwatched : ∀ (b : Agenda) e name value, n.action = .effect e →
      e.write? b.state = some (name, value) →
      b.nesting < p.limits.maxCallDepth → p.watchers.get? name = none := by
    intro b e name value heffect
    rw [haction] at heffect
    contradiction
  exact ⟨next_of_action? h (hunwatched a) (hact a.state),
    recorded_of_fault (next_of_action? (a := a.unlogged) h (hunwatched _) (hact _)) rfl⟩

end Agenda

end

/-- The watchers of a variable in a document, in the order of their chains. -/
def watchersOf (d : Document) (name : String) : List (List Action) :=
  valuesOf name ((Handler.ofDocument d).filterMap Handler.watcher?)

theorem watchersOf_eq_nil_iff {d : Document} {name : String} :
    watchersOf d name = [] ↔
      name ∉ ((Handler.ofDocument d).filterMap Handler.watcher?).map (·.1) := by
  simp only [watchersOf, valuesOf, List.map_eq_nil_iff, List.filter_eq_nil_iff,
    decide_eq_true_eq, List.mem_map, not_exists, not_and]

/-- The work of a frame begins and ends outside of all watchers. In it neither watchers nor calls
nest deeper than the limit, and each write starts the watchers that it should, before the writer
goes on. -/
structure Record.Nests (p : Program) (d : Document) (r : Record) : Prop where
  begins : ∃ a, r.agendas.head? = some a ∧ a.nesting = 0
  ends : ∃ a, r.agendas.getLast? = some a ∧ (a.next p r.moment).duties = [] ∧
    (a.next p r.moment).nesting = 0
  bounded : ∀ a ∈ r.agendas, a.IsBounded p
  writes : ∀ earlier a later n x name value, r.agendas = earlier ++ a :: later →
    a.action? = some n →
    n.action = .effect x → x.write? a.state = some (name, value) →
      a.Writes p r.moment (watchersOf d name) later n name value
  calls : ∀ a ∈ r.agendas, ∀ n name, a.action? = some n → n.action = .call name →
    p.functions.contains name = true → p.limits.maxCallDepth ≤ callDepth n.stack →
      a.RefusesCall p r.moment n name

namespace Engine
variable {e : Engine} {d : Document} {w : World} {beats : List Beat} {records : List Record}

theorem get?_watchers (e : Engine) (d : Document) (name : String) :
    (watchersOf d name = [] → (e.programOf d).watchers.get? name = none) ∧
      (watchersOf d name ≠ [] → (e.programOf d).watchers.get? name = some (watchersOf d name)) := by
  have hget : (e.programOf d).watchers.get? name = _ := get?_grouped _ name
  rw [hget, Ne, watchersOf_eq_nil_iff]
  exact ⟨fun h => if_neg h, fun h => if_pos (not_not.1 h)⟩

theorem isBounded_ofBegin {p : Program} (lastTaskId : Nat) (random : Random) :
    (Agenda.ofBegin d lastTaskId random w).IsBounded p := by
  refine ⟨rfl, Nat.zero_le _, fun stack hstack => ?_⟩
  have htimers : ∀ t ∈ (Agenda.ofBegin d lastTaskId random w).state.pending,
      callDepth t.stack = 0 := by
    refine List.foldlRecOn _ State.addTimer
      (motive := fun s : State => ∀ t ∈ s.pending, callDepth t.stack = 0)
        (by simp [State.mirrorScore]) ?_
    intro s hs timer _
    exact List.forall_mem_append.2 ⟨hs, List.forall_mem_singleton.2 rfl⟩
  rcases Agenda.mem_taskStacks.1 hstack with ⟨duty, hduty, hnone⟩ | ⟨t, ht, -⟩ | ⟨t, ht, rfl⟩
  · obtain rfl := List.mem_singleton.1 hduty
    contradiction
  · contradiction
  · rw [htimers t ht]
    exact Nat.zero_le _

theorem isBounded_ofBeat {p : Program} {r : Engine × World} {s : Session} (b : Beat)
    (hs : r.1.session = some s)
    (h : ∀ t ∈ (r.1.state r.2).pending, callDepth t.stack ≤ p.limits.maxCallDepth) :
    (Agenda.ofBeat r b s).IsBounded p := by
  rw [state_of_session hs] at h
  refine ⟨rfl, Nat.zero_le _, fun stack hstack => ?_⟩
  rcases Agenda.mem_taskStacks.1 hstack with ⟨duty, hduty, hnone⟩ | ⟨t, ht, -⟩ | ⟨t, ht, rfl⟩
  · simp only [Agenda.ofBeat, Agenda.ofAdvance, Agenda.ofTriggers, List.mem_cons, List.not_mem_nil,
      or_false] at hduty
    rcases hduty with rfl | rfl | rfl | rfl <;> contradiction
  · contradiction
  · exact h t ht

theorem Recorded.isBounded (h : e.Recorded d w beats records) :
    (∀ r ∈ records, ∀ a ∈ r.agendas, a.IsBounded (e.programOf d)) ∧
      ∀ t ∈ (e.play d w beats).1.waiting, callDepth t.stack ≤ e.limits.maxCallDepth :=
  h.forall_agendas (fun a => a.IsBounded (e.programOf d))
    (fun s => ∀ t ∈ s.pending, callDepth t.stack ≤ e.limits.maxCallDepth) (isBounded_ofBegin _ _)
    (fun _ _ hs hr b _ => isBounded_ofBeat b hs hr) (fun m _ ha => ha.next m)
    fun _ _ hc t ht => hc.callDepth_le t.stack (Agenda.mem_taskStacks.2 (.inr (.inr ⟨t, ht, rfl⟩)))

theorem Recorded.nests (h : e.Recorded d w beats records) {r : Record} (hr : r ∈ records) :
    r.Nests (e.programOf d) d := by
  have hbounded := h.isBounded.1 r hr
  obtain ⟨a₀, c, hcourse, hne, hzero⟩ := h.exists_course hr
  have hhead := hcourse.head?_eq hne
  obtain ⟨last, hlast, rfl⟩ := hcourse.getLast?_eq hne
  refine ⟨⟨a₀, hhead, hzero⟩, ⟨last, hlast, hcourse.duties_eq_nil, ?_⟩, hbounded, ?_, ?_⟩
  · have hend := (hbounded last (List.mem_of_getLast? hlast)).next r.moment
    rw [hend.nesting_eq, hcourse.duties_eq_nil]
    rfl
  · intro earlier a later n x name value hsplit haction hx hwrite
    rw [hsplit] at hcourse
    obtain ⟨hnone, hsome⟩ := e.get?_watchers d name
    exact Agenda.writes haction hx hwrite hnone hsome hcourse.onward
  · intro a _ n name haction hcall hdefined hdeep
    exact Agenda.refusesCall haction hcall hdefined hdeep

end Engine

/-- Nesting is bounded. In every play of every document, whatever the game does between the frames,
each frame begins and ends outside of all watchers; in it neither watchers nor calls nest deeper
than the limit, and no waiting task is inside of more calls. A write to a variable with a name
stores its value. Below the limit it starts each watcher of the variable once, as they were
registered, each up to where it waits before the next one starts, and then the writer goes on at the
nesting at which it wrote; at the limit no watcher starts and one fault is recorded. A call of a
function at the limit records one fault, runs nothing of the function and goes on with what follows
the call. -/
theorem Engine.play_boundsNesting (e : Engine) (d : Document) (w : World) (beats : List Beat) :
    ∃ records, e.Recorded d w beats records ∧ (∀ r ∈ records, r.Nests (e.programOf d) d) ∧
      ∀ t ∈ (e.play d w beats).1.waiting, callDepth t.stack ≤ e.limits.maxCallDepth := by
  obtain ⟨records, h⟩ := e.exists_recorded d w beats
  exact ⟨records, h, fun r hr => h.nests hr, h.isBounded.2⟩

end BlockStudio.Script
