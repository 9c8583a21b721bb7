import BlockStudio.Proofs.RunSteps
import Mathlib.Data.List.Induction

/-!
The steps of runs in a whole play, frame by frame. Main statement: no run of a play is lost. After
each step its run is over, or a later step of the play goes on where the step left it, or the play
ends while its task waits.
-/
namespace BlockStudio.Script

namespace Engine

/-- A play with the steps of its runs, frame by frame. -/
inductive Traced (e : Engine) (d : Document) (w : World) : List Beat → List (List RunStep) → Prop
  | start {us : List RunStep} {c : Agenda}
    (h : Works (e.programOf d) .start (Agenda.ofBegin d e.lastTaskId e.random w) us c) :
    Traced e d w [] [us]
  | update {beats : List Beat} {frames : List (List RunStep)} {us : List RunStep} {c : Agenda}
    {s : Session} (b : Beat) (hearlier : Traced e d w beats frames)
    (hs : (e.play d w beats).1.session = some s)
    (h : Works (e.programOf d) (s.moment.after (frameTime b.seconds))
    (Agenda.ofBeat (e.play d w beats) b s) us c) :
    Traced e d w (beats ++ [b]) (frames ++ [us])

variable {e : Engine} {d : Document} {w : World} {beats : List Beat} {frames : List (List RunStep)}

/-- A play is a session with the program of the document. -/
theorem exists_session_play (e : Engine) (d : Document) (w : World) (beats : List Beat) :
    ∃ s, (e.play d w beats).1.session = some s ∧ s.program = e.programOf d := by
  induction beats using List.reverseRecOn with
  | nil => exact ⟨_, rfl, rfl⟩
  | append_singleton beats b ih =>
    obtain ⟨s, hs, hprogram⟩ := ih
    rw [play_concat, beat_of_session hs]
    exact ⟨_, rfl, hprogram⟩

theorem exists_traced (e : Engine) (d : Document) (w : World) (beats : List Beat) :
    ∃ frames, e.Traced d w beats frames := by
  induction beats using List.reverseRecOn with
  | nil =>
    obtain ⟨ran, hreach⟩ := reaches_begin e.limits d e.lastTaskId e.random w
    obtain ⟨us, hus⟩ := Works.exists_of_reaches hreach rfl
    exact ⟨[us], .start hus⟩
  | append_singleton beats b ih =>
    obtain ⟨frames, hframes⟩ := ih
    obtain ⟨s, hs, hprogram⟩ := e.exists_session_play d w beats
    obtain ⟨ran, hreach⟩ := reaches_advance s b.seconds
      (s.state (e.play d w beats).1.lastTaskId (e.play d w beats).1.faults
        (e.play d w beats).1.random (b.change (e.play d w beats).2))
    rw [hprogram] at hreach
    obtain ⟨us, hus⟩ := Works.exists_of_reaches hreach rfl
    exact ⟨frames ++ [us], .update b hframes hs hus⟩

namespace Traced

/-- The frames are counted, and each step is at the moment of its frame. -/
theorem moment_eq (h : e.Traced d w beats frames) :
    frames.length = beats.length + 1 ∧
    (e.play d w beats).1.moment.frame = min beats.length Number.counterMax ∧
      ∀ i us, frames[i]? = some us → ∀ u ∈ us, u.moment.frame = min i Number.counterMax := by
  induction h with
  | start h =>
    refine ⟨rfl, rfl, fun i us hus u hu => ?_⟩
    cases i with
    | zero =>
      obtain rfl : _ = us := Option.some.inj hus
      rw [h.moment_eq hu]
      rfl
    | succ i => simp at hus
  | @update beats frames us c s b hearlier hs h ih =>
    obtain ⟨hlength, hframe, hsteps⟩ := ih
    have hmoment : s.moment.frame = min beats.length Number.counterMax := by
      simpa only [moment, hs, Option.map_some, Option.getD_some] using hframe
    have hnew : (s.moment.after (frameTime b.seconds)).frame =
        min (beats.length + 1) Number.counterMax := by
      simp only [Moment.after, Number.countUp, hmoment]
      omega
    refine ⟨by simp [hlength], ?_, fun i us' hus u hu => ?_⟩
    · rw [play_concat, beat_of_session hs, List.length_append]
      exact hnew
    · rw [List.getElem?_append] at hus
      split at hus
      · exact hsteps i us' hus u hu
      · have hi : i = beats.length + 1 := by
          have hzero := (List.getElem?_eq_some_iff.1 hus).1
          simp only [List.length_singleton] at hzero
          omega
        subst hi
        simp only [hlength, Nat.sub_self, List.getElem?_cons_zero, Option.some.injEq] at hus
        subst hus
        rw [h.moment_eq hu, hnew]

/-- The stored tasks at the end of the work of a frame wait after the frame. -/
theorem stores_iff {us : List RunStep} {c : Agenda} {s : Session} {b : Beat}
    (hs : (e.play d w beats).1.session = some s)
    (h : Works (e.programOf d) (s.moment.after (frameTime b.seconds))
      (Agenda.ofBeat (e.play d w beats) b s) us c) {t : Task} :
    c.Stores t ↔ t ∈ (e.play d w (beats ++ [b])).1.waiting := by
  obtain ⟨s', hs', hprogram⟩ := e.exists_session_play d w beats
  obtain rfl := Option.some.inj (hs.symm.trans hs')
  obtain ⟨ran, hreach⟩ := reaches_advance s b.seconds
    (s.state (e.play d w beats).1.lastTaskId (e.play d w beats).1.faults (e.play d w beats).1.random
      (b.change (e.play d w beats).2))
  rw [hprogram] at hreach
  rw [h.eq_of_reaches hreach rfl, play_concat, beat_of_session hs]
  simp [Agenda.Stores, waiting, resume, Session.advance, Session.withState]

/-- A task that waits before a frame goes on in the frame, if it is due, or else waits after it. -/
theorem goesOn_or_waits {us : List RunStep} {c : Agenda} {s : Session} {b : Beat}
    (hs : (e.play d w beats).1.session = some s)
    (h : Works (e.programOf d) (s.moment.after (frameTime b.seconds))
      (Agenda.ofBeat (e.play d w beats) b s) us c) {t : Task}
    (ht : t ∈ (e.play d w beats).1.waiting) :
    (t.wake.isDue (s.moment.after (frameTime b.seconds)) = true ∧
        ∃ u ∈ us, u.moment = s.moment.after (frameTime b.seconds) ∧ u.entry = .resumed t ∧
          u.stack = t.stack) ∨
      (t.wake.isDue (s.moment.after (frameTime b.seconds)) = false ∧
        t ∈ (e.play d w (beats ++ [b])).1.waiting) := by
  have hpending : t ∈ s.pending := by simpa [waiting, hs] using ht
  have hawaits : (Agenda.ofBeat (e.play d w beats) b s).Awaits t := by
    refine .inl ⟨hpending, ?_⟩
    simp [Agenda.ofBeat, Agenda.ofAdvance, Agenda.ofTriggers]
  cases hdue : t.wake.isDue (s.moment.after (frameTime b.seconds)) with
  | true => exact .inl ⟨rfl, h.exists_resumed hawaits hdue⟩
  | false =>
    rcases h.resumed_or_stored (.inl hawaits) with ⟨hgo, -⟩ | hstores
    · simp [hdue] at hgo
    · exact .inr ⟨rfl, (stores_iff hs h).1 hstores⟩

/-- No run of a play is lost: after a step its run is over, or a later step goes on with it, or its
task waits when the play ends. In the frame after the last step of a run its task is due, if it
waits for the next frame. -/
theorem continued (h : e.Traced d w beats frames) {earlier later : List RunStep} {u : RunStep}
    (hus : frames.flatten = earlier ++ u :: later) :
    (∃ s, u.progress (e.programOf d) = .finished s) ∨
      (∃ u' ∈ later, u.Follows (e.programOf d) u') ∨
      u.StillWaits (e.programOf d) (e.play d w beats).1 := by
  induction h generalizing earlier later with
  | @start us c hworks =>
    rw [List.flatten_singleton] at hus
    rcases hworks.continued hus with hover | ⟨u', hu', hgo, hmoment⟩ | ⟨t, hwaits, hstores⟩
    · exact .inl hover
    · exact .inr (.inl ⟨u', hu', hgo.follows hmoment⟩)
    · obtain ⟨ran, hreach⟩ := reaches_begin e.limits d e.lastTaskId e.random w
      rw [hworks.eq_of_reaches hreach rfl] at hstores
      have hmoment : u.moment = .start := hworks.moment_eq (by simp [hus])
      exact .inr (.inr ⟨t, hwaits, hstores.resolve_left (by simp), fun _ _ => hmoment.symm⟩)
  | @update beats frames us c s b hearlier hs hworks ih =>
    have hnow : (e.play d w (beats ++ [b])).1.moment = s.moment.after (frameTime b.seconds) := by
      rw [play_concat, beat_of_session hs]
      rfl
    rw [List.flatten_append, List.flatten_singleton] at hus
    have hsplit : (∃ front, us = front ++ u :: later) ∨
        ∃ back, frames.flatten = earlier ++ u :: back ∧ later = back ++ us := by
      rcases List.append_eq_append_iff.1 hus with ⟨front, -, hus⟩ | ⟨_ | ⟨u', back⟩, hfront, hback⟩
      · exact .inl ⟨front, hus⟩
      · exact .inl ⟨[], hback.symm⟩
      · obtain ⟨rfl, rfl⟩ := List.cons.inj hback
        exact .inr ⟨back, hfront, rfl⟩
    rcases hsplit with ⟨front, hus⟩ | ⟨back, hfront, rfl⟩
    · have hmoment : u.moment = s.moment.after (frameTime b.seconds) :=
        hworks.moment_eq (by simp [hus])
      rcases hworks.continued hus with hover | ⟨u', hu', hgo, hsame⟩ | ⟨t, hwaits, hstores⟩
      · exact .inl hover
      · exact .inr (.inl ⟨u', hu', hgo.follows hsame⟩)
      · exact .inr (.inr ⟨t, hwaits, (stores_iff hs hworks).1 hstores,
          fun _ _ => by rw [hnow, hmoment]⟩)
    · rcases ih hfront with hover | ⟨u', hu', hfollows⟩ | ⟨t, hwaits, ht, hlast⟩
      · exact .inl hover
      · exact .inr (.inl ⟨u', List.mem_append_left _ hu', hfollows⟩)
      · have hthen : (e.play d w beats).1.moment = s.moment := by
          simp only [moment, hs, Option.map_some, Option.getD_some]
        have hnext : u.PutsOff (e.programOf d) → u.moment.frame < Number.counterMax →
            (s.moment.after (frameTime b.seconds)).frame = u.moment.frame + 1 := by
          intro hputsOff hlt
          have hframe : s.moment = u.moment := by rw [← hthen, hlast hputsOff hlt]
          rw [hframe]
          exact Number.countUp_of_le (by omega)
        rcases goesOn_or_waits hs hworks ht with
            ⟨hdue, u', hu', hmoment', hentry, hstack⟩ | ⟨hnotDue, hstill⟩
        · refine .inr (.inl ⟨u', List.mem_append_right _ hu',
            .resumed hwaits hentry hstack (hmoment' ▸ hdue), ?_⟩)
          intro hputsOff hlt
          rw [hmoment']
          exact hnext hputsOff hlt
        · refine .inr (.inr ⟨t, hwaits, hstill, fun hputsOff hlt => ?_⟩)
          have hcount : Number.countUp u.moment.frame 1 = u.moment.frame + 1 :=
            Number.countUp_of_le hlt
          simp [hputsOff.wake_eq hwaits, Wake.isDue, hnext hputsOff hlt, hcount] at hnotDue

end Traced

end Engine

end BlockStudio.Script
