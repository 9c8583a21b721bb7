import BlockStudio.Proofs.Courses
import BlockStudio.Proofs.Evaluator

/-!
Runs that never wait, and the places where their loops hand control back. A transcript lists what a
run puts out, step by step, if its loops never hand control back. Main statement: in the work of a
frame a run takes the next steps of its transcript, to the end or to a place where a loop hands
control back, and leaves the rest of the transcript to do.
-/
namespace BlockStudio.Script

/-- The program with loops that never hand control back. -/
def Program.unyielding (p : Program) : Program :=
  { p with limits := { p.limits with loopYieldInterval := 0 } }

/-- The frame as if its loop had not handed control back yet. -/
def Frame.settle : Frame → Frame
  | .counted body times done _ => .counted body times done 0
  | .conditional c body done _ => .conditional c body done 0
  | .sequence rest isCall => .sequence rest isCall

def settle (stack : Stack) : Stack := stack.map Frame.settle

@[simp] theorem settle_cons (f : Frame) (stack : Stack) :
    settle (f :: stack) = f.settle :: settle stack := rfl

@[simp] theorem settle_eq_nil {stack : Stack} : settle stack = [] ↔ stack = [] :=
  List.map_eq_nil_iff

@[simp] theorem callDepth_settle (stack : Stack) : callDepth (settle stack) = callDepth stack := by
  induction stack with
  | nil => rfl
  | cons f stack ih => cases f <;> simp [Frame.settle, ih]

def Progress.settle : Progress → Progress
  | .finished s => .finished s
  | .suspended wake stack s => .suspended wake (Script.settle stack) s
  | .running stack s => .running (Script.settle stack) s

/-- Whether the innermost loop hands control back before its next round. -/
def Program.yields (p : Program) : Stack → Bool
  | .counted _ _ done yieldedAt :: _ => Limits.yieldsAt p.limits.loopYieldInterval done yieldedAt
  | .conditional _ _ done yieldedAt :: _ =>
    Limits.yieldsAt p.limits.loopYieldInterval done yieldedAt
  | _ => false

def Frame.waits : Frame → Bool
  | .sequence rest _ => listWaits rest
  | .counted body _ _ _ => listWaits body
  | .conditional _ body _ _ => listWaits body

/-- No function waits, and there are no watchers. -/
structure Program.IsPlain (p : Program) : Prop where
  functions : ∀ name body, p.functions.get? name = some body → listWaits body = false
  watchers : ∀ name, p.watchers.get? name = none

section
variable {p : Program} {m : Moment} {origin : String}

/-- A step is a step of the settled stack, unless the innermost loop hands control back. -/
theorem advance_settle (stack : Stack) (s : State) :
    (advance p m none origin stack s).settle = advance p.unyielding m none origin (settle stack) s ∨
      p.yields stack = true ∧ ∃ stack', settle stack' = settle stack ∧ p.yields stack' = false ∧
        advance p m none origin stack s =
          .suspended (.atFrame (Number.countUp m.frame 1)) stack' s := by
  have hinterval : ∀ done, Limits.yieldsAt p.unyielding.limits.loopYieldInterval done 0 =
      false := by
    simp [Program.unyielding, Limits.yieldsAt]
  cases stack with
  | nil => exact .inl rfl
  | cons f below =>
    cases f with
    | sequence actions isCall =>
      left
      cases actions with
      | nil => rfl
      | cons a rest =>
        cases a with
        | call name =>
          simp only [settle_cons, Frame.settle, advance, act, Program.unyielding,
            callDepth_sequence, callDepth_settle]
          split
          · rfl
          · split <;> rfl
        | whenTrue c body =>
          simp only [settle_cons, Frame.settle, advance, act]
          split <;> rfl
        | choose c body otherwise =>
          simp only [settle_cons, Frame.settle, advance, act]
          split <;> rfl
        | chance percent body =>
          simp only [settle_cons, Frame.settle, advance, act]
          split <;> rfl
        | _ => rfl
    | counted body times done yieldedAt =>
      simp only [settle_cons, Frame.settle, advance, hinterval, Program.yields]
      by_cases hover : times ≤ done
      · simp only [if_pos hover]
        exact .inl rfl
      · simp only [if_neg hover]
        cases hyield : Limits.yieldsAt p.limits.loopYieldInterval done yieldedAt with
        | false => exact .inl rfl
        | true => exact .inr ⟨rfl, _, rfl, by simp [Limits.yieldsAt], rfl⟩
    | conditional c body done yieldedAt =>
      simp only [settle_cons, Frame.settle, advance, hinterval, Program.yields]
      by_cases hover : (p.limits.loopCeiling ≤ done || !s.holds c) = true
      · have hover' : (p.unyielding.limits.loopCeiling ≤ done || !s.holds c) = true := hover
        simp only [if_pos hover, if_pos hover']
        exact .inl rfl
      · have hover' : ¬(p.unyielding.limits.loopCeiling ≤ done || !s.holds c) = true := hover
        simp only [if_neg hover, if_neg hover']
        cases hyield : Limits.yieldsAt p.limits.loopYieldInterval done yieldedAt with
        | false => exact .inl rfl
        | true => exact .inr ⟨rfl, _, rfl, by simp [Limits.yieldsAt], rfl⟩

/-- The run is over, or goes on with nothing left in it that waits. -/
inductive Progress.IsWaitless : Progress → Prop
  | finished (s : State) : IsWaitless (.finished s)
  | running {stack : Stack} {s : State}
    (h : ∀ f ∈ stack, f.waits = false) : IsWaitless (.running stack s)

theorem waitless_act (m : Moment) (origin : String) (hp : p.IsPlain) {a : Action}
    {here : Stack} (s : State) (ha : a.waits = false) (hhere : ∀ f ∈ here, f.waits = false) :
    (act p m none origin a here s).IsWaitless := by
  have hpush : ∀ {body}, listWaits body = false → ∀ f ∈ .begin body :: here, f.waits = false :=
    fun hbody => List.forall_mem_cons.2 ⟨hbody, hhere⟩
  have hbranch : ∀ {body}, listWaits body = false → ∀ (taken : Prop) [Decidable taken] (t : State),
      Progress.IsWaitless (.running (if taken then .begin body :: here else here) t) := by
    intro body hbody taken _ t
    split
    · exact .running (hpush hbody)
    · exact .running hhere
  cases a with
  | effect e => exact .running hhere
  | wait seconds => simp [Action.waits] at ha
  | call name =>
    simp only [act]
    cases hname : p.functions.get? name with
    | none => exact .running hhere
    | some body =>
      by_cases hdepth : callDepth here < p.limits.maxCallDepth
      · simp only [if_pos hdepth]
        exact .running (List.forall_mem_cons.2 ⟨hp.functions name body hname, hhere⟩)
      · simp only [if_neg hdepth]
        exact .running hhere
  | whenTrue c body => exact hbranch ha _ _
  | choose c body otherwise =>
    obtain ⟨hbody, hotherwise⟩ := Bool.or_eq_false_iff.1 ha
    simp only [act]
    split
    · exact .running (hpush hbody)
    · exact .running (hpush hotherwise)
  | chance percent body => exact hbranch ha _ _
  | repeatTimes times body => exact .running (List.forall_mem_cons.2 ⟨ha, hhere⟩)
  | repeatWhile c body => exact .running (List.forall_mem_cons.2 ⟨ha, hhere⟩)

/-- Without waits, and without loops that hand control back, a step does not suspend its run. -/
theorem waitless_advance (m : Moment) (origin : String) (hp : p.IsPlain)
    (hinterval : p.limits.loopYieldInterval = 0) {stack : Stack} (s : State)
    (h : ∀ f ∈ stack, f.waits = false) :
    (advance p m none origin stack s).IsWaitless := by
  have hnever : ∀ done yieldedAt,
      Limits.yieldsAt p.limits.loopYieldInterval done yieldedAt = false := by
    simp [hinterval, Limits.yieldsAt]
  cases stack with
  | nil => exact .finished s
  | cons f below =>
    obtain ⟨hf, hbelow⟩ := List.forall_mem_cons.1 h
    cases f with
    | sequence actions isCall =>
      cases actions with
      | nil => exact .running hbelow
      | cons a rest =>
        obtain ⟨ha, hrest⟩ := Bool.or_eq_false_iff.1 hf
        exact waitless_act m origin hp s ha (List.forall_mem_cons.2 ⟨hrest, hbelow⟩)
    | counted body times done yieldedAt =>
      simp only [advance, hnever]
      split
      · exact .running hbelow
      · exact .running (List.forall_mem_cons.2 ⟨hf, List.forall_mem_cons.2 ⟨hf, hbelow⟩⟩)
    | conditional c body done yieldedAt =>
      simp only [advance, hnever]
      split
      · exact .running hbelow
      · exact .running (List.forall_mem_cons.2 ⟨hf, List.forall_mem_cons.2 ⟨hf, hbelow⟩⟩)

end

/-- What a run puts out, step by step, from a stack and a state to its end. -/
inductive Transcript (p : Program) (origin : String) : Stack → State → List Output → State → Prop
  | finished (s : State) : Transcript p origin [] s [] s
  | step {stack stack' : Stack} {s s' c : State} {o : Output} {os : List Output}
    (hstep : ∀ m x, advance p m none origin stack (s.withUnread x) =
      .running stack' (s'.withUnread (x.put m origin o)))
      (hrest : Transcript p origin stack' s' os c) : Transcript p origin stack s (o :: os) c

section
variable {p : Program} {m : Moment} {origin : String}

theorem exists_transcript (hp : p.IsPlain) (hinterval : p.limits.loopYieldInterval = 0)
    {stack : Stack} (s : State) (h : ∀ f ∈ stack, f.waits = false) :
    ∃ os c, Transcript p origin stack s os c := by
  induction hweight : p.weight stack using Nat.strongRecOn generalizing stack s with
  | ind weight ih =>
    have hstep : StepOutcome p origin stack s := stepOutcome stack s
    have hwaitless := waitless_advance .start origin hp hinterval s h
    cases hstep with
    | finished hnil =>
      subst hnil
      exact ⟨[], s, .finished s⟩
    | suspended wake stack' hstep =>
      have hown : advance p .start none origin stack s = .suspended (wake .start) stack' s :=
        hstep .start s.unread
      rw [hown] at hwaitless
      cases hwaitless
    | running stack' s' o _ hstep =>
      have hown : advance p .start none origin stack s =
          .running stack' (s'.withUnread (s.unread.put .start origin o)) :=
        hstep .start s.unread
      rw [hown] at hwaitless
      cases hwaitless with
      | running hwaitless' =>
        obtain ⟨os, c, hrest⟩ := ih _ (hweight ▸ advance_weight hown) s' hwaitless' rfl
        exact ⟨o :: os, c, .step hstep hrest⟩

end

/-- Only runs and the announcing of triggers put something out. -/
theorem Agenda.silent {p : Program} {m : Moment} {a : Agenda}
    (hrun : ∀ entry stack, a.duties.head? ≠ some (.run entry stack))
    (hannounced : a.announced? = none) :
    a.emitted p m = [] ∧ a.recorded p m = [] := by
  obtain ⟨duties, nesting, kept, ran, s⟩ := a
  cases duties with
  | nil => exact ⟨rfl, rfl⟩
  | cons duty duties =>
    cases duty with
    | run entry stack => exact absurd rfl (hrun entry stack)
    | watch name lists => cases lists <;> exact ⟨rfl, rfl⟩
    | start announced lists =>
      cases lists with
      | nil => exact ⟨rfl, rfl⟩
      | cons e lists =>
        cases announced with
        | false => exact ⟨rfl, rfl⟩
        | true => simp [announced?] at hannounced
    | resume waiting =>
      cases waiting with
      | nil => exact ⟨rfl, rfl⟩
      | cons t waiting =>
        simp only [emitted, recorded, next, unlogged, withLogs]
        split <;> exact ⟨rfl, rfl⟩
    | _ => exact ⟨rfl, rfl⟩

/-- Steps of the work from one agenda to another, with the events that they emit and the faults that
they record. -/
inductive Passes (p : Program) (m : Moment) :
    Agenda → List EventContent → List Fault → Agenda → Prop
  | refl (a : Agenda) : Passes p m a [] [] a
  | step {a b : Agenda} {events : List EventContent} {faults : List Fault} (h : a.duties ≠ [])
    (hrest : Passes p m (a.next p m) events faults b) :
    Passes p m a (a.emitted p m ++ events) (a.recorded p m ++ faults) b

namespace Passes
variable {p : Program} {m : Moment} {a b c : Agenda} {events events' : List EventContent}
    {faults faults' : List Fault}

theorem trans (h : Passes p m a events faults b) (h' : Passes p m b events' faults' c) :
    Passes p m a (events ++ events') (faults ++ faults') c := by
  induction h with
  | refl _ => exact h'
  | step ha _ ih =>
    rw [List.append_assoc, List.append_assoc]
    exact .step ha (ih h')

/-- A step with a known outcome. -/
theorem head {events₁ : List EventContent} {faults₁ : List Fault} (h : Passes p m b events faults c)
    (ha : a.duties ≠ []) (hnext : a.next p m = b) (hevents : a.emitted p m = events₁)
    (hfaults : a.recorded p m = faults₁) :
    Passes p m a (events₁ ++ events) (faults₁ ++ faults) c := by
  subst hnext hevents hfaults
  exact .step ha h

/-- A step that puts out nothing. -/
theorem silent (h : Passes p m b events faults c) (ha : a.duties ≠ [])
    (hrun : ∀ entry stack, a.duties.head? ≠ some (.run entry stack))
    (hannounced : a.announced? = none) (hnext : a.next p m = b) : Passes p m a events faults c :=
  h.head ha hnext (Agenda.silent hrun hannounced).1 (Agenda.silent hrun hannounced).2

/-- The whole of the work emits and records what the steps to its end do. -/
theorem of_course (h : Passes p m a events faults b) (hb : b.duties = []) {as : List Agenda}
    (hcourse : Course p m a as c) :
    c = b ∧ Record.events p ⟨m, as⟩ = events ∧ Record.faults p ⟨m, as⟩ = faults := by
  induction h generalizing as with
  | refl _ =>
    cases hcourse with
    | done _ => exact ⟨rfl, rfl, rfl⟩
    | next h _ => contradiction
  | step ha _ ih =>
    cases hcourse with
    | done h => contradiction
    | next _ hrest =>
      obtain ⟨rfl, rfl, rfl⟩ := ih hb hrest
      exact ⟨rfl, rfl, rfl⟩

end Passes

section
variable {p : Program} {m : Moment} {origin : String}

/-- Where a run stands on the agenda: what comes after it, and what was there before. -/
structure Setting where
  entry : Entry
  duties : List Duty
  nesting : Nat
  kept : List Task
  ran : List Ran

namespace Setting

/-- The agenda of a run. -/
def agenda (r : Setting) (stack : Stack) (s : State) : Agenda :=
  ⟨.run r.entry stack :: r.duties, r.nesting, r.kept, r.ran, s⟩

/-- The agenda after the run. -/
def left (r : Setting) (rest : Option (Wake × Stack)) (s : State) : Agenda :=
  Agenda.leave ⟨r.duties, r.nesting, r.kept, r.ran, s⟩ r.entry rest

variable (r : Setting)

theorem next_agenda (hp : p.IsPlain) (stack : Stack) (s : State) :
    (r.agenda stack s).next p m =
      match advance p m none r.entry.origin stack s with
      | .running stack s => r.agenda stack s
      | .suspended wake stack s => r.left (some (wake, stack)) s
      | .finished s => r.left none s := by
  have hunwatched : (if r.nesting < p.limits.maxCallDepth then watchedWrite? p s stack else none) =
      none := by
    rw [watchedWrite?_eq_none hp.watchers, ite_self]
  exact next_run_of_unwatched r.duties r.kept r.ran hunwatched

theorem unlogged_agenda (stack : Stack) (s : State) (x : Unread) :
    (r.agenda stack (s.withUnread x)).unlogged =
      r.agenda stack
        (s.withUnread { x with faults := .empty, bus := { x.bus with log := .empty } }) := rfl

theorem logs_left (rest : Option (Wake × Stack)) (s : State) :
    (r.left rest s).state.world.bus = s.world.bus ∧ (r.left rest s).state.faults = s.faults := by
  obtain ⟨entry, duties, nesting, kept, ran⟩ := r
  cases entry with
  | resumed t => exact ⟨rfl, rfl⟩
  | launched id origin actions => cases rest <;> exact ⟨rfl, rfl⟩

variable {r} {stack stack' : Stack} {s s' : State}

theorem passes_running (hp : p.IsPlain) {o : Output}
    (h : ∀ x, advance p m none r.entry.origin stack (s.withUnread x) =
      .running stack' (s'.withUnread (x.put m r.entry.origin o))) (x : Unread) :
    Passes p m (r.agenda stack (s.withUnread x)) o.event?.toList
      (o.faultAt? m r.entry.origin).toList
      (r.agenda stack' (s'.withUnread (x.put m r.entry.origin o))) := by
  have hnext : ∀ x, (r.agenda stack (s.withUnread x)).next p m =
      r.agenda stack' (s'.withUnread (x.put m r.entry.origin o)) :=
    fun x => by rw [r.next_agenda hp, h]
  have hevents : (r.agenda stack (s.withUnread x)).emitted p m = o.event?.toList := by
    rw [Agenda.emitted, unlogged_agenda, hnext]
    exact EventBus.entries_foldl_emit_empty o.event? x.bus.frame
  have hfaults : (r.agenda stack (s.withUnread x)).recorded p m =
      (o.faultAt? m r.entry.origin).toList := by
    rw [Agenda.recorded, unlogged_agenda, hnext]
    exact BoundedLog.entries_foldl_push_empty (by decide) _
  simpa using (Passes.refl (p := p) (m := m) _).head (by simp [agenda]) (hnext x) hevents hfaults

/-- A run that is over or suspended leaves the agenda. -/
theorem passes_left {rest : Option (Wake × Stack)}
    (h : ∀ x, (r.agenda stack (s.withUnread x)).next p m = r.left rest (s.withUnread x))
    (x : Unread) :
    Passes p m (r.agenda stack (s.withUnread x)) [] [] (r.left rest (s.withUnread x)) := by
  have hevents : (r.agenda stack (s.withUnread x)).emitted p m = [] := by
    rw [Agenda.emitted, unlogged_agenda, h, (logs_left _ _ _).1]
    rfl
  have hfaults : (r.agenda stack (s.withUnread x)).recorded p m = [] := by
    rw [Agenda.recorded, unlogged_agenda, h, (logs_left _ _ _).2]
    rfl
  exact (Passes.refl _).head (by simp [agenda]) (h x) hevents hfaults

end Setting

/-- How a run stops in its transcript: at the end of it, or where a loop hands control back. -/
inductive StopsIn (p : Program) (m : Moment) (origin : String) (c : State) :
    List Output → State → Option (Wake × Stack) → Prop
  | finished : StopsIn p m origin c [] c none
  | suspended {os : List Output} {s : State} {stack : Stack} (hyields : p.yields stack = false)
    (h : Transcript p.unyielding origin (settle stack) s os c) :
    StopsIn p m origin c os s (some (.atFrame (Number.countUp m.frame 1), stack))

/-- In a frame a run goes on with its transcript. If its innermost loop does not hand control back
at once, it makes headway unless it is over. A run that is suspended while the transcript goes on is
suspended by a loop that hands control back. -/
theorem Transcript.passes (hp : p.IsPlain) {r : Setting} {settled stack : Stack} {s c : State}
    {os : List Output} (h : Transcript p.unyielding r.entry.origin settled s os c)
    (hstack : settle stack = settled) (x : Unread) :
    ∃ before after s' rest, os = before ++ after ∧
      Passes p m (r.agenda stack (s.withUnread x)) (before.flatMap (·.event?.toList))
        (before.flatMap fun o => (o.faultAt? m r.entry.origin).toList)
        (r.left rest (s'.withUnread (before.foldl (·.put m r.entry.origin ·) x))) ∧
      StopsIn p m r.entry.origin c after s' rest ∧
      (p.yields stack = false → rest.isSome → before ≠ []) := by
  induction h generalizing stack x with
  | finished s =>
    obtain rfl := settle_eq_nil.1 hstack
    have hover : ∀ x, (r.agenda [] (s.withUnread x)).next p m = r.left none (s.withUnread x) :=
      fun x => by rw [r.next_agenda hp]; rfl
    exact ⟨[], [], s, none, rfl, Setting.passes_left hover x, .finished, by simp⟩
  | @step settled settled' s s' c o os hstep hrest ih =>
    have houtcome : StepOutcome p r.entry.origin stack s := stepOutcome stack s
    cases houtcome with
    | finished hnil =>
      subst hnil hstack
      have hover := hstep m x
      cases hover
    | suspended wake stack' hsuspended =>
      have hsuspends : ∀ x, advance p m none r.entry.origin stack (s.withUnread x) =
          .suspended (wake m) stack' (s.withUnread x) := hsuspended m
      rcases advance_settle (p := p) (m := m) stack (s.withUnread x)
        with hsame | ⟨hyields, stack₁, hsettle, hrested, hyield⟩
      · rw [hstack, hsuspends, hstep] at hsame
        cases hsame
      · rw [hsuspends] at hyield
        obtain ⟨hwake, rfl, -⟩ := Progress.suspended.inj hyield
        rw [hwake] at hsuspends
        have hnext : ∀ x, (r.agenda stack (s.withUnread x)).next p m =
            r.left (some (.atFrame (Number.countUp m.frame 1), stack')) (s.withUnread x) :=
          fun x => by rw [r.next_agenda hp, hsuspends]
        refine ⟨[], o :: os, s, _, rfl, Setting.passes_left hnext x, .suspended hrested ?_,
          by simp [hyields]⟩
        rw [hsettle, hstack]
        exact .step hstep hrest
    | running stack' s₁ o₁ _ hrunning =>
      have hsettled : settle stack' = settled' ∧
          ∀ x, advance p m none r.entry.origin stack (s.withUnread x) =
          .running stack' (s'.withUnread (x.put m r.entry.origin o)) := by
        have hsame : ∀ x : Unread, settle stack' = settled' ∧
            s₁.withUnread (x.put m r.entry.origin o₁) =
              s'.withUnread (x.put m r.entry.origin o) := by
          intro x
          rcases advance_settle (p := p) (m := m) stack (s.withUnread x) with
              hsame | ⟨-, _, -, -, hyield⟩
          · rw [hstack, hrunning, hstep] at hsame
            exact Progress.running.inj hsame
          · rw [hrunning] at hyield
            cases hyield
        exact ⟨(hsame x).1, fun x => by rw [hrunning, (hsame x).2]⟩
      obtain ⟨hsettle, hruns⟩ := hsettled
      obtain ⟨before, after, s₂, rest, rfl, hpasses, hstops, -⟩ :=
        ih hsettle (x.put m r.entry.origin o)
      refine ⟨o :: before, after, s₂, rest, rfl, ?_, hstops, by simp⟩
      rw [List.flatMap_cons, List.flatMap_cons, List.foldl_cons]
      exact (Setting.passes_running hp hruns x).trans hpasses

end

end BlockStudio.Script
