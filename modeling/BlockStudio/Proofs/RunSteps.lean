import BlockStudio.Proofs.Plays
import BlockStudio.Proofs.Waiting

/-!
The steps that runs take in the work of a frame, in the order in which they happen. Main statement:
after each step its run is over, or a later step goes on where the step left it, or its task is
stored when the work is done.
-/
namespace BlockStudio.Script

/-- A step that a run takes. -/
structure RunStep where
  moment : Moment
  entry : Entry
  stack : Stack
  state : State

namespace RunStep

def progress (p : Program) (u : RunStep) : Progress :=
  advance p u.moment none u.entry.origin u.stack u.state

/-- The task that waits after the step, if the step suspends the run. -/
def waiting? (p : Program) (u : RunStep) : Option Task :=
  match u.progress p with
  | .suspended wake stack _ => some ⟨u.entry.id, u.entry.origin, stack, wake⟩
  | _ => none

/-- The second step goes on where the first left its run: at once, or when the task has come to its
time. -/
inductive Continues (p : Program) (u u' : RunStep) : Prop
  | running {s : State} (hstep : u.progress p = .running u'.stack s)
    (hmoment : u'.moment = u.moment) (hentry : u'.entry = u.entry)
  | resumed {t : Task} (hwaits : u.waiting? p = some t) (hentry : u'.entry = .resumed t)
    (hstack : u'.stack = t.stack) (hdue : t.wake.isDue u'.moment = true)

/-- The step puts its task off to the next frame. -/
def PutsOff (p : Program) (u : RunStep) : Prop :=
  ∃ stack s, u.progress p = .suspended (.atFrame (Number.countUp u.moment.frame 1)) stack s

/-- The second step goes on where the first left its run. It does so in the very next frame if the
first put its task off to that frame, unless the counter of frames has run out. -/
structure Follows (p : Program) (u u' : RunStep) : Prop where
  continues : u.Continues p u'
  prompt : u.PutsOff p → u.moment.frame < Number.counterMax → u'.moment.frame = u.moment.frame + 1

/-- The task that the step suspended waits in an engine. If it was put off to the next frame, no
frame came since. -/
def StillWaits (p : Program) (e : Engine) (u : RunStep) : Prop :=
  ∃ t, u.waiting? p = some t ∧ t ∈ e.waiting ∧
    (u.PutsOff p → u.moment.frame < Number.counterMax → e.moment = u.moment)

theorem PutsOff.wake_eq {p : Program} {u : RunStep} {t : Task} (h : u.PutsOff p)
    (hwaits : u.waiting? p = some t) :
    t.wake = .atFrame (Number.countUp u.moment.frame 1) := by
  obtain ⟨stack, s, hsuspend⟩ := h
  simp only [waiting?, hsuspend, Option.some.injEq] at hwaits
  rw [← hwaits]

/-- What goes on in the same frame was not put off to the next one. -/
theorem Continues.follows {p : Program} {u u' : RunStep} (h : u.Continues p u')
    (hmoment : u'.moment = u.moment) :
    u.Follows p u' := by
  refine ⟨h, fun hputsOff hlt => ?_⟩
  cases h with
  | running hstep _ _ =>
    obtain ⟨stack, s, hsuspend⟩ := hputsOff
    simp [hsuspend] at hstep
  | resumed hwaits _ _ hdue =>
    have hle : Number.countUp u.moment.frame 1 ≤ u.moment.frame := by
      simpa [hputsOff.wake_eq hwaits, hmoment, Wake.isDue] using hdue
    rw [Number.countUp_of_le hlt] at hle
    omega

end RunStep

/-- The step of a run that comes next. -/
def Agenda.runStep? (m : Moment) (a : Agenda) : Option RunStep :=
  match a.duties with
  | .run entry stack :: _ => some ⟨m, entry, stack, a.state⟩
  | _ => none

/-- Work that is done to its end, with the steps of runs in it. -/
inductive Works (p : Program) (m : Moment) : Agenda → List RunStep → Agenda → Prop
  | done {a : Agenda} (h : a.duties = []) : Works p m a [] a
  | next {a c : Agenda} {us : List RunStep} (h : a.duties ≠ [])
    (hrest : Works p m (a.next p m) us c) :
    Works p m a ((a.runStep? m).toList ++ us) c

namespace Agenda

/-- The tasks that are stored, and are not looked at unless a look comes. -/
def Stores (t : Task) (a : Agenda) : Prop := t ∈ a.kept ∨ t ∈ a.state.pending

/-- The tasks that are still to be looked at. -/
def Awaits (t : Task) (a : Agenda) : Prop :=
  (t ∈ a.state.pending ∧ .look ∈ a.duties) ∨ ∃ waiting, .resume waiting ∈ a.duties ∧ t ∈ waiting

end Agenda

section
variable {p : Program} {m : Moment} {a b c : Agenda}

namespace Agenda

section
variable {t : Task}

theorem pending_subset_leave (a : Agenda) (entry : Entry) (rest : Option (Wake × Stack))
    (ht : t ∈ a.state.pending) :
    t ∈ (a.leave entry rest).state.pending := by
  cases entry with
  | resumed _ => exact ht
  | launched id origin actions =>
    cases rest with
    | none => exact ht
    | some rest => exact List.mem_append_left _ ht

theorem kept_subset_leave (a : Agenda) (entry : Entry) (rest : Option (Wake × Stack))
    (ht : t ∈ a.kept) :
    t ∈ (a.leave entry rest).kept := by
  cases entry with
  | resumed _ => exact List.mem_append_left _ ht
  | launched id origin actions => exact ht

/-- Only a look takes pending tasks away. -/
theorem mem_pending_next {duty : Duty} {duties : List Duty} (h : a.duties = duty :: duties)
    (hlook : duty ≠ .look) (ht : t ∈ a.state.pending) : t ∈ (a.next p m).state.pending := by
  obtain ⟨_, nesting, kept, ran, s⟩ := a
  subst h
  cases duty with
  | run entry stack =>
    have hpending := (@advance_none_tasks p m entry.origin stack s).1
    rcases goOn_cases p m ⟨.run entry stack :: duties, nesting, kept, ran, s⟩ entry stack duties
      with ⟨w, -, hgoOn⟩ | hgoOn
    · simpa only [next, hgoOn, State.pending_store] using ht
    · simp only [next, hgoOn]
      cases hresult : advance p m none entry.origin stack s <;> rw [hresult] at hpending <;>
        simp only [Progress.state] at hpending
      · exact pending_subset_leave _ _ _ (hpending ▸ ht)
      · exact pending_subset_leave _ _ _ (hpending ▸ ht)
      · exact hpending ▸ ht
  | watch name lists => cases lists <;> exact ht
  | start announced lists =>
    cases lists with
    | nil => exact ht
    | cons e lists =>
      cases announced with
      | false => exact ht
      | true => simpa [next, launch, State.takeTaskId] using ht
  | look => contradiction
  | resume waiting =>
    cases waiting with
    | nil => exact List.mem_mergeSort.2 (List.mem_append_right _ ht)
    | cons u waiting =>
      simp only [next]
      split <;> exact ht
  | _ => exact ht

theorem mem_kept_next (ht : t ∈ a.kept) :
    t ∈ (a.next p m).kept ∨ t ∈ (a.next p m).state.pending := by
  obtain ⟨duties, nesting, kept, ran, s⟩ := a
  cases duties with
  | nil => exact .inl ht
  | cons duty duties =>
    cases duty with
    | run entry stack =>
      left
      rcases goOn_cases p m ⟨.run entry stack :: duties, nesting, kept, ran, s⟩ entry stack duties
        with ⟨w, -, hgoOn⟩ | hgoOn
      · simpa only [next, hgoOn] using ht
      · simp only [next, hgoOn]
        cases advance p m none entry.origin stack s with
        | running stack s => exact ht
        | suspended wake stack s => exact kept_subset_leave _ _ _ ht
        | finished s => exact kept_subset_leave _ _ _ ht
    | watch name lists => cases lists <;> exact .inl ht
    | start announced lists => cases lists <;> exact .inl ht
    | resume waiting =>
      cases waiting with
      | nil => exact .inr (List.mem_mergeSort.2 (List.mem_append_left _ ht))
      | cons u waiting =>
        left
        simp only [next]
        split
        · exact ht
        · exact List.mem_append_left _ ht
    | _ => exact .inl ht

/-- A stored task stays stored, or comes to be looked at. -/
theorem Stores.next (h : a.Stores t) : (a.next p m).Stores t ∨ (a.next p m).Awaits t := by
  rcases h with hkept | hpending
  · exact .inl (mem_kept_next hkept)
  · cases hduties : a.duties with
    | nil => exact .inl (.inr (by rwa [next_of_done hduties]))
    | cons duty duties =>
      by_cases hlook : duty = .look
      · subst hlook
        refine .inr (.inr ⟨a.state.pending, ?_, hpending⟩)
        simp [Agenda.next, hduties]
      · exact .inl (.inr (mem_pending_next hduties hlook hpending))

/-- A task that is still to be looked at stays so, or goes on if it is due, or else is stored. -/
theorem Awaits.next (h : a.Awaits t) :
    (a.next p m).Awaits t ∨
    (t.wake.isDue m = true ∧ .run (.resumed t) t.stack ∈ (a.next p m).duties) ∨
      (t.wake.isDue m = false ∧ (a.next p m).Stores t) := by
  rcases h with ⟨hpending, hlook⟩ | ⟨waiting, hresume, ht⟩
  · left
    cases hduties : a.duties with
    | nil => simp [hduties] at hlook
    | cons duty duties =>
      by_cases hfirst : duty = .look
      · subst hfirst
        refine .inr ⟨a.state.pending, ?_, hpending⟩
        simp [Agenda.next, hduties]
      · have hlater : .look ∈ duties := by
          rw [hduties] at hlook
          exact (List.mem_cons.1 hlook).resolve_left (Ne.symm hfirst)
        exact .inl ⟨mem_pending_next hduties hfirst hpending, a.mem_duties_next p m hduties hlater⟩
  · cases hduties : a.duties with
    | nil => simp [hduties] at hresume
    | cons duty duties =>
      rw [hduties] at hresume
      rcases List.mem_cons.1 hresume with rfl | hlater
      · cases waiting with
        | nil => contradiction
        | cons u waiting =>
          simp only [Agenda.next, hduties]
          rcases List.mem_cons.1 ht with rfl | hbehind
          · split
            · rename_i hdue
              exact .inr (.inl ⟨hdue, List.mem_cons_self⟩)
            · rename_i hdue
              exact .inr (.inr ⟨by simpa using hdue,
                .inl (List.mem_append_right _ (List.mem_singleton_self t))⟩)
          · left
            split
            · exact .inr ⟨waiting, List.mem_cons_of_mem _ List.mem_cons_self, hbehind⟩
            · exact .inr ⟨waiting, List.mem_cons_self, hbehind⟩
      · exact .inl (.inr ⟨waiting, a.mem_duties_next p m hduties hlater, ht⟩)

end

end Agenda

/-- A step of a run leaves the run on the agenda, or its task if it suspends. -/
theorem next_of_runStep {u : RunStep} (h : a.runStep? m = some u) :
    (∀ stack s, u.progress p = .running stack s → .run u.entry stack ∈ (a.next p m).duties) ∧
      ∀ t, u.waiting? p = some t → (a.next p m).Stores t := by
  obtain ⟨_ | ⟨duty, duties⟩, nesting, kept, ran, s⟩ := a
  · simp [Agenda.runStep?] at h
  · cases duty with
    | run entry stack =>
      obtain rfl : _ = u := Option.some.inj h
      rcases Agenda.goOn_cases p m ⟨.run entry stack :: duties, nesting, kept, ran, s⟩
          entry stack duties with ⟨w, hw, hgoOn⟩ | hgoOn
      · have hprogress : ∃ s', advance p m none entry.origin stack s = .running w.stack s' :=
          ⟨_, (advance_of_watchedWrite? none hw).2⟩
        obtain ⟨s', hprogress⟩ := hprogress
        simp only [RunStep.progress, RunStep.waiting?, hprogress, Agenda.next, hgoOn]
        refine ⟨?_, by simp⟩
        rintro _ _ hsame
        cases hsame
        exact List.mem_cons_of_mem _ List.mem_cons_self
      · simp only [RunStep.progress, RunStep.waiting?, Agenda.next, hgoOn]
        cases advance p m none entry.origin stack s with
        | running stack' s' =>
          refine ⟨?_, by simp⟩
          rintro _ _ hsame
          cases hsame
          exact List.mem_cons_self
        | suspended wake stack' s' =>
          refine ⟨by simp, ?_⟩
          rintro _ hsame
          cases hsame
          cases entry with
          | resumed t => exact .inl (List.mem_append_right _ (List.mem_singleton_self _))
          | launched id origin actions =>
            exact .inr (List.mem_append_right _ (List.mem_singleton_self _))
        | finished s' => simp
    | _ => simp [Agenda.runStep?] at h

namespace Works
variable {us : List RunStep}

theorem exists_of_reaches (h : Reaches p m a c) (hc : c.duties = []) : ∃ us, Works p m a us c := by
  obtain ⟨n, rfl⟩ := h
  induction n generalizing a with
  | zero => exact ⟨[], .done hc⟩
  | succ n ih =>
    rw [Function.iterate_succ_apply] at hc ⊢
    by_cases ha : a.duties = []
    · rw [Agenda.next_of_done ha, Agenda.iterate_next_of_done ha]
      exact ⟨[], .done ha⟩
    · obtain ⟨us, hus⟩ := ih hc
      exact ⟨_, .next ha hus⟩

theorem unique {us' : List RunStep} {c' : Agenda} (h : Works p m a us c) (h' : Works p m a us' c') :
    us = us' ∧ c = c' := by
  induction h generalizing us' with
  | done ha =>
    cases h' with
    | done _ => exact ⟨rfl, rfl⟩
    | next ha' _ => contradiction
  | next ha _ ih =>
    cases h' with
    | done ha' => contradiction
    | next _ hrest =>
      obtain ⟨rfl, rfl⟩ := ih hrest
      exact ⟨rfl, rfl⟩

theorem eq_of_reaches (h : Works p m a us c) {c' : Agenda} (hreach : Reaches p m a c')
    (hc : c'.duties = []) :
    c = c' := by
  obtain ⟨us', hus'⟩ := exists_of_reaches hreach hc
  exact (h.unique hus').2

theorem moment_eq (h : Works p m a us c) {u : RunStep} (hu : u ∈ us) : u.moment = m := by
  induction h with
  | done _ => contradiction
  | @next a _ _ _ _ ih =>
    rcases List.mem_append.1 hu with hfirst | hlater
    · rw [Option.mem_toList, Agenda.runStep?] at hfirst
      split at hfirst
      · cases hfirst
        rfl
      · contradiction
    · exact ih hlater

/-- A run on the agenda takes its step. -/
theorem exists_runStep (h : Works p m a us c) {entry : Entry} {stack : Stack}
    (hrun : .run entry stack ∈ a.duties) :
    ∃ u ∈ us, u.moment = m ∧ u.entry = entry ∧ u.stack = stack := by
  induction h with
  | done ha => simp [ha] at hrun
  | @next a _ _ _ _ ih =>
    cases hduties : a.duties with
    | nil => simp [hduties] at hrun
    | cons duty duties =>
      rw [hduties] at hrun
      rcases List.mem_cons.1 hrun with rfl | hlater
      · refine ⟨⟨m, entry, stack, a.state⟩, ?_, rfl, rfl, rfl⟩
        simp [Agenda.runStep?, hduties]
      · obtain ⟨u, hu, hsame⟩ := ih (a.mem_duties_next p m hduties hlater)
        exact ⟨u, List.mem_append_right _ hu, hsame⟩

/-- A due task that is still to be looked at goes on. -/
theorem exists_resumed (h : Works p m a us c) {t : Task} (ht : a.Awaits t)
    (hdue : t.wake.isDue m = true) :
    ∃ u ∈ us, u.moment = m ∧ u.entry = .resumed t ∧ u.stack = t.stack := by
  induction h with
  | done ha =>
    rcases ht with ⟨-, hlook⟩ | ⟨waiting, hresume, -⟩
    · simp [ha] at hlook
    · simp [ha] at hresume
  | @next _ _ us _ hrest ih =>
    have hlater : ∃ u ∈ us, u.moment = m ∧ u.entry = .resumed t ∧ u.stack = t.stack := by
      rcases ht.next with hagain | ⟨-, hrun⟩ | ⟨hnotDue, -⟩
      · exact ih hagain
      · exact hrest.exists_runStep hrun
      · rw [hdue] at hnotDue
        contradiction
    obtain ⟨u, hu, hsame⟩ := hlater
    exact ⟨u, List.mem_append_right _ hu, hsame⟩

/-- A task that is stored or still to be looked at goes on when it is due, or is stored in the
end. -/
theorem resumed_or_stored (h : Works p m a us c) {t : Task} (ht : a.Awaits t ∨ a.Stores t) :
    (t.wake.isDue m = true ∧ ∃ u ∈ us, u.moment = m ∧ u.entry = .resumed t ∧ u.stack = t.stack) ∨
    c.Stores t := by
  induction h with
  | done ha =>
    rcases ht with (⟨-, hlook⟩ | ⟨waiting, hresume, -⟩) | hstores
    · simp [ha] at hlook
    · simp [ha] at hresume
    · exact .inr hstores
  | @next a c us _ hrest ih =>
    have hlater : ((a.next p m).Awaits t ∨ (a.next p m).Stores t) ∨
        (t.wake.isDue m = true ∧ .run (.resumed t) t.stack ∈ (a.next p m).duties) := by
      rcases ht with hawaits | hstores
      · rcases hawaits.next (p := p) (m := m) with hagain | hgo | ⟨-, hkept⟩
        · exact .inl (.inl hagain)
        · exact .inr hgo
        · exact .inl (.inr hkept)
      · exact .inl (hstores.next.symm)
    have hend : (t.wake.isDue m = true ∧ ∃ u ∈ us, u.moment = m ∧ u.entry = .resumed t ∧
        u.stack = t.stack) ∨
        c.Stores t := by
      rcases hlater with hwaits | ⟨hdue, hrun⟩
      · exact ih hwaits
      · exact .inl ⟨hdue, hrest.exists_runStep hrun⟩
    refine hend.imp_left ?_
    rintro ⟨hdue, u, hu, hsame⟩
    exact ⟨hdue, u, List.mem_append_right _ hu, hsame⟩

theorem exists_later (h : Works p m a us c) {earlier later : List RunStep} {u : RunStep}
    (hus : us = earlier ++ u :: later) :
    ∃ b : Agenda, b.runStep? m = some u ∧ Works p m (b.next p m) later c := by
  induction h generalizing earlier with
  | done _ => simp at hus
  | @next a _ us _ hrest ih =>
    cases hfirst : a.runStep? m with
    | none =>
      rw [hfirst] at hus
      exact ih hus
    | some u' =>
      rw [hfirst] at hus
      cases earlier with
      | nil =>
        obtain ⟨rfl, rfl⟩ := List.cons.inj hus
        exact ⟨a, hfirst, hrest⟩
      | cons u'' earlier =>
        obtain ⟨-, hus⟩ := List.cons.inj hus
        exact ih hus

/-- After a step of the work its run is over, or a later step goes on with it, or its task is stored
in the end. -/
theorem continued (h : Works p m a us c) {earlier later : List RunStep} {u : RunStep}
    (hus : us = earlier ++ u :: later) :
    (∃ s, u.progress p = .finished s) ∨ (∃ u' ∈ later, u.Continues p u' ∧ u'.moment = u.moment) ∨
      ∃ t, u.waiting? p = some t ∧ c.Stores t := by
  have hmoment : u.moment = m := h.moment_eq (by simp [hus])
  obtain ⟨b, hb, hlater⟩ := h.exists_later hus
  obtain ⟨hrun, hstores⟩ := next_of_runStep (p := p) hb
  cases hprogress : u.progress p with
  | finished s => exact .inl ⟨s, rfl⟩
  | running stack s =>
    obtain ⟨u', hu', hmoment', hentry, rfl⟩ := hlater.exists_runStep (hrun stack s hprogress)
    have hsame : u'.moment = u.moment := by rw [hmoment', hmoment]
    exact .inr (.inl ⟨u', hu', .running hprogress hsame hentry, hsame⟩)
  | suspended wake stack s =>
    have hwaits : u.waiting? p = some ⟨u.entry.id, u.entry.origin, stack, wake⟩ := by
      simp only [RunStep.waiting?, hprogress]
    rcases hlater.resumed_or_stored (.inr (hstores _ hwaits)) with
        ⟨hdue, u', hu', hmoment', hentry, hstack⟩ | hend
    · have hsame : u'.moment = u.moment := by rw [hmoment', hmoment]
      exact .inr (.inl ⟨u', hu', .resumed hwaits hentry hstack (hmoment' ▸ hdue), hsame⟩)
    · exact .inr (.inr ⟨_, hwaits, hend⟩)

end Works

end

end BlockStudio.Script
