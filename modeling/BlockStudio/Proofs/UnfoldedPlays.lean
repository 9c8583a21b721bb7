import BlockStudio.Proofs.Lockstep

/-!
Sessions whose action lists are unfolded. Each part of a frame keeps two sessions in step, and so
does a whole frame, as long as no call is too deep. Main statement: a play that never records the
fault of a call is the same for two documents that begin in step.
-/
namespace BlockStudio.Script

section
variable {p p' : Program} {m : Moment}

section
variable {s s' : State} {duties : List Duty} {ran : List Ran}

theorem fireAll_unfolds (hp : ProgramUnfolds p p') {fired fired' : List (String × List Action)}
    (hfired : LabelledUnfolds p fired fired') (hs : StateUnfolds p s s')
    (hshallow : Agenda.StaysShallow p m ⟨.start true fired :: duties, 0, [], ran, s⟩) :
    StateUnfolds p (fireAll p m fired s) (fireAll p' m fired' s') ∧
      ∃ ran, Agenda.StaysShallow p m ⟨duties, 0, [], ran, fireAll p m fired s⟩ := by
  obtain ⟨ran₁, hreach⟩ := reaches_fireAll (p := p) (m := m) fired [] [] ran s
  obtain ⟨ran₂, hreach'⟩ := reaches_fireAll (p := p') (m := m) fired' [] [] [] s'
  obtain ⟨ran₃, hlater⟩ := reaches_fireAll (p := p) (m := m) fired duties [] ran s
  have halone : Agenda.StaysShallow p m ⟨[.start true fired], 0, [], ran, s⟩ :=
    @Agenda.StaysShallow.of_before p m _ duties hshallow
  have hstart : AgendaUnfolds p ⟨[.start true fired], 0, [], ran, s⟩
      ⟨[.start true fired'], 0, [], [], s'⟩ :=
    ⟨.cons (.start true hfired) .nil, rfl, .nil, hs⟩
  exact ⟨hreach.unfolds hp rfl hreach' rfl hstart halone, ran₃, hshallow.onward hlater⟩

theorem fireRisen_unfolds (hp : ProgramUnfolds p p') (label : String → String)
    (isActive : World → String → Bool) {t t' : Table Binding} (ht : t.Related (BindingUnfolds p) t')
    (hs : StateUnfolds p s s')
    (hshallow : Agenda.StaysShallow p m ⟨.start true (risen label (isActive s.world) t) ::
      duties, 0, [], ran, s⟩) :
    StateUnfolds p (fireAll p m (risen label (isActive s.world) t) s)
        (fireAll p' m (risen label (isActive s'.world) t') s') ∧
      ∃ ran, Agenda.StaysShallow p m ⟨duties, 0, [], ran,
        fireAll p m (risen label (isActive s.world) t) s⟩ := by
  rw [hs.world_eq]
  exact fireAll_unfolds hp (risen_unfolds label _ ht) hs hshallow

theorem startAll_unfolds (hp : ProgramUnfolds p p') {lists lists' : List (String × List Action)}
    (hlists : LabelledUnfolds p lists lists') (hs : StateUnfolds p s s')
    (hshallow : Agenda.StaysShallow p m ⟨[.start false lists], 0, [], ran, s⟩) :
    StateUnfolds p (startAll p m lists s) (startAll p' m lists' s') := by
  obtain ⟨ran₁, hreach⟩ := reaches_startAll (p := p) (m := m) lists [] [] ran s
  obtain ⟨ran₂, hreach'⟩ := reaches_startAll (p := p') (m := m) lists' [] [] [] s'
  have hstart : AgendaUnfolds p ⟨[.start false lists], 0, [], ran, s⟩
      ⟨[.start false lists'], 0, [], [], s'⟩ :=
    ⟨.cons (.start false hlists) .nil, rfl, .nil, hs⟩
  exact hreach.unfolds hp rfl hreach' rfl hstart hshallow

theorem resumeDue_unfolds (hp : ProgramUnfolds p p') (hs : StateUnfolds p s s')
    (hshallow : Agenda.StaysShallow p m ⟨[.look], 0, [], ran, s⟩) :
    StateUnfolds p (resumeDue p m s) (resumeDue p' m s') := by
  obtain ⟨ran₁, hreach⟩ := reaches_look (p := p) (m := m) [] ran s
  obtain ⟨ran₂, hreach'⟩ := reaches_look (p := p') (m := m) [] [] s'
  have hlook : AgendaUnfolds p ⟨[.look], 0, [], ran, s⟩ ⟨[.look], 0, [], [], s'⟩ :=
    ⟨.cons .look .nil, rfl, .nil, hs⟩
  exact hreach.unfolds hp rfl hreach' rfl hlook hshallow

end

theorem fireScores_unfolds {s s' : State} (hs : StateUnfolds p s s')
    {scores scores' : List ScoreTrigger} (h : List.Forall₂ (ScoreUnfolds p) scores scores') :
    LabelledUnfolds p (fireScores s.world.score scores).1 (fireScores s'.world.score scores').1 ∧
      List.Forall₂ (ScoreUnfolds p)
        (fireScores s.world.score scores).2 (fireScores s'.world.score scores').2 := by
  rw [hs.world_eq]
  induction h with
  | nil => exact ⟨.nil, .nil⟩
  | cons ht _ ih =>
    obtain ⟨hfired, hscores⟩ := ih
    simp only [fireScores, ht.fired, ht.comparison, ht.threshold]
    split
    · exact ⟨.cons ⟨rfl, ht.actions⟩ hfired, .cons ⟨rfl, rfl, ht.actions, rfl⟩ hscores⟩
    · exact ⟨hfired, .cons ht hscores⟩

theorem sense_unfolds {s s' : State} (hs : StateUnfolds p s s') (isActive : World → String → Bool)
    {t t' : Table Binding} (h : t.Related (BindingUnfolds p) t') :
    (sense (isActive s.world) t).Related (BindingUnfolds p) (sense (isActive s'.world) t') := by
  rw [hs.world_eq]
  exact Table.related_mapValues h fun _ _ _ hb => ⟨hb.lists, rfl⟩

end

/-- Two sessions that differ in their action lists only, which the second unfolds. -/
structure SessionUnfolds (s s' : Session) : Prop where
  program : ProgramUnfolds s.program s'.program
  moment : s'.moment = s.moment
  touches : s.touches.Related (BindingUnfolds s.program) s'.touches
  keys : s.keys.Related (BindingUnfolds s.program) s'.keys
  scores : List.Forall₂ (ScoreUnfolds s.program) s.scores s'.scores
  variableValues : s'.variableValues = s.variableValues
  overlay : s'.overlay = s.overlay
  pending : List.Forall₂ (TaskUnfolds s.program) s.pending s'.pending

namespace SessionUnfolds
variable {s s' : Session}

theorem state (h : SessionUnfolds s s') (lastTaskId : Nat) (faults : FaultLog)
    (random : Random) (world : World) :
    StateUnfolds s.program (s.state lastTaskId faults random world)
      (s'.state lastTaskId faults random world) := by
  refine ⟨s'.pending, h.pending, ?_⟩
  simp only [Session.state, State.withTasks, h.variableValues, h.overlay]

theorem withState (h : SessionUnfolds s s') {st st' : State} (hst : StateUnfolds s.program st st') :
    SessionUnfolds (s.withState st) (s'.withState st') := by
  obtain ⟨pending, htasks, rfl⟩ := hst
  exact ⟨h.program, h.moment, h.touches, h.keys, h.scores, rfl, rfl, htasks⟩

/-- A frame in which no call is too deep keeps two sessions in step. -/
theorem advance (h : SessionUnfolds s s') (dt : Float) {st st' : State}
    (hst : StateUnfolds s.program st st')
    (hshallow : (Agenda.ofAdvance s dt st).StaysShallow s.program (s.moment.after (frameTime dt))) :
    SessionUnfolds (s.advance dt st).1 (s'.advance dt st').1 ∧
      StateUnfolds s.program (s.advance dt st).2 (s'.advance dt st').2 := by
  obtain ⟨p', m, touches', keys', scores', variableValues', overlay', pending'⟩ := s'
  obtain ⟨hp, rfl, htouches, hkeys, hscores, hvariables, hoverlay, hpending⟩ := h
  have haged :=
    hst.map (fun st => (st.ageOverlay (frameTime dt)).mirrorScore) rfl rfl fun _ _ => rfl
  obtain ⟨hfired, hfiredScores⟩ := fireScores_unfolds haged hscores
  obtain ⟨hscored, ran₁, hshallow₁⟩ := fireAll_unfolds hp hfired haged hshallow
  have hsensed := sense_unfolds hscored World.touchesPlayer htouches
  obtain ⟨htouched, ran₂, hshallow₂⟩ :=
    fireRisen_unfolds hp (Trigger.label ∘ .touch) World.touchesPlayer htouches hscored
      (hshallow₁.onward ⟨1, rfl⟩)
  have hheld := sense_unfolds htouched World.isKeyDown hkeys
  obtain ⟨hpressed, ran₃, hshallow₃⟩ :=
    fireRisen_unfolds hp (Trigger.label ∘ .key) World.isKeyDown hkeys htouched
      (hshallow₂.onward ⟨1, rfl⟩)
  have hlooked := resumeDue_unfolds hp hpressed hshallow₃
  simp only [Session.advance]
  refine ⟨withState ?_ hlooked, hlooked⟩
  exact ⟨hp, rfl, hsensed, hheld, hfiredScores, hvariables, hoverlay, hpending⟩

end SessionUnfolds

namespace Agenda

/-- No step of the work records a fault of a call. -/
def NeverFaultsOnCall (p : Program) (m : Moment) (a : Agenda) : Prop :=
  ∀ n fault, fault.action = .callFunc →
    ((Agenda.next p m)^[n + 1] a).state.faults ≠ ((Agenda.next p m)^[n] a).state.faults.push fault

theorem NeverFaultsOnCall.staysShallow {p : Program} {m : Moment} {a : Agenda}
    (h : a.NeverFaultsOnCall p m) :
    a.StaysShallow p m := by
  intro n
  have hstep := h n
  rw [Function.iterate_succ_apply'] at hstep
  generalize (Agenda.next p m)^[n] a = b at hstep ⊢
  rw [Bool.eq_false_iff]
  intro hdeep
  cases hduties : b.duties with
  | nil => simp [callsTooDeep, hduties] at hdeep
  | cons duty duties =>
    cases duty with
    | run entry stack =>
      simp only [callsTooDeep, hduties] at hdeep
      obtain ⟨name, rest, hadvance⟩ :=
        @advance_of_callsTooDeep p m entry.origin none stack b.state hdeep
      have hunwatched : watchedWrite? p b.state stack = none := by
        unfold Script.callsTooDeep at hdeep
        split at hdeep
        · rfl
        · contradiction
      apply hstep ⟨entry.origin, .callFunc, "call depth limit reached calling '" ++
        name ++ "'", m.frame⟩ rfl
      simp only [next, hduties, goOn, hunwatched, ite_self, hadvance]
      rfl
    | _ => simp [callsTooDeep, hduties] at hdeep

/-- Work that is done after `k` steps, and has recorded no fault until then, never faults. -/
theorem neverFaultsOnCall_of_faultless {p : Program} {m : Moment} {a : Agenda} (k : Nat)
    (hdone : ((Agenda.next p m)^[k] a).duties.isEmpty = true)
    (h : ∀ n ≤ k, ((Agenda.next p m)^[n] a).state.faults.entries = []) :
    a.NeverFaultsOnCall p m := by
  have hall : ∀ n, ((Agenda.next p m)^[n] a).state.faults.entries = [] := by
    intro n
    rcases Nat.le_total n k with hle | hle
    · exact h n hle
    · obtain ⟨more, rfl⟩ := Nat.exists_eq_add_of_le hle
      rw [Nat.add_comm, Function.iterate_add_apply, iterate_next_of_done (List.isEmpty_iff.1 hdone)]
      exact h k (Nat.le_refl k)
  intro n fault _ hpush
  have hentries := congrArg BoundedLog.entries hpush
  rw [hall, BoundedLog.entries_push, hall] at hentries
  simp [BoundedLog.latest, faultLimit] at hentries

end Agenda

/-- Two plays that differ in action lists only, which the second unfolds. -/
structure PlayUnfolds (r r' : Engine × World) : Prop where
  random : r'.1.random = r.1.random
  lastTaskId : r'.1.lastTaskId = r.1.lastTaskId
  faults : r'.1.faults = r.1.faults
  world : r'.2 = r.2
  session : ∃ s s', r.1.session = some s ∧ r'.1.session = some s' ∧ SessionUnfolds s s'

/-- Two plays that look the same: variables, message, clock, random source, faults, what the tasks
wait for, and the game with its events. -/
structure Indistinguishable (r r' : Engine × World) : Prop where
  variableValues : r'.1.variableValues = r.1.variableValues
  overlay : r'.1.overlay = r.1.overlay
  moment : r'.1.moment = r.1.moment
  random : r'.1.random = r.1.random
  faults : r'.1.faults = r.1.faults
  lastTaskId : r'.1.lastTaskId = r.1.lastTaskId
  waiting : r'.1.waiting.map (fun t => (t.id, t.origin, t.wake)) = r.1.waiting.map fun t =>
    (t.id, t.origin, t.wake)
  world : r'.2 = r.2

/-- Tasks that unfold others wait for the same. -/
theorem outlines_eq {p : Program} {tasks tasks' : List Task}
    (h : List.Forall₂ (TaskUnfolds p) tasks tasks') :
    tasks'.map (fun t => (t.id, t.origin, t.wake)) = tasks.map fun t =>
      (t.id, t.origin, t.wake) := by
  induction h with
  | nil => rfl
  | cons ht _ ih => rw [List.map_cons, List.map_cons, ih, ht.id, ht.origin, ht.wake]

namespace PlayUnfolds
variable {r r' : Engine × World}

theorem indistinguishable (h : PlayUnfolds r r') : Indistinguishable r r' := by
  obtain ⟨e, w⟩ := r
  obtain ⟨e', w'⟩ := r'
  obtain ⟨hrandom, hlast, hfaults, hworld, s, s', hs, hs', hsession⟩ := h
  simp only at hs hs'
  refine ⟨?_, ?_, ?_, hrandom, hfaults, hlast, ?_, hworld⟩
  · simp only [Engine.variableValues, hs, hs', Option.map_some, hsession.variableValues]
  · simp only [Engine.overlay, hs, hs', Option.bind_some, hsession.overlay]
  · simp only [Engine.moment, hs, hs', Option.map_some, hsession.moment]
  · simp only [Engine.waiting, hs, hs', Option.map_some, Option.getD_some]
    exact outlines_eq hsession.pending

theorem of_resume (e e' : Engine) {s s' : Session} {st st' : State} {p : Program}
    (hs : SessionUnfolds s s') (hst : StateUnfolds p st st') :
    PlayUnfolds (e.resume (s, st)) (e'.resume (s', st')) := by
  obtain ⟨pending, -, rfl⟩ := hst
  exact ⟨rfl, rfl, rfl, rfl, s, s', rfl, rfl, hs⟩

theorem beat (h : PlayUnfolds r r') (b : Beat)
    (hshallow : ∀ s, r.1.session = some s →
      (Agenda.ofBeat r b s).StaysShallow s.program (s.moment.after (frameTime b.seconds))) :
    PlayUnfolds (Engine.beat r b) (Engine.beat r' b) := by
  obtain ⟨e, w⟩ := r
  obtain ⟨e', w'⟩ := r'
  obtain ⟨hrandom, hlast, hfaults, rfl, s, s', hs, hs', hsession⟩ := h
  have hstate := hsession.state e.lastTaskId e.faults e.random (b.change w')
  obtain ⟨hnew, hnewState⟩ := hsession.advance b.seconds hstate (hshallow s hs)
  simp only at hrandom hlast hfaults hs hs'
  simp only [Engine.beat, Engine.update, hs, hs', hlast, hfaults, hrandom]
  exact of_resume e e' hnew hnewState

end PlayUnfolds

namespace Engine

/-- No step of a play records a fault of a call. -/
structure NeverFaultsOnCall (e : Engine) (d : Document) (w : World) (beats : List Beat) : Prop where
  start : (Agenda.ofBegin d e.lastTaskId e.random w).NeverFaultsOnCall
    (.ofHandlers e.limits (Handler.ofDocument d)) .start
  update : ∀ earlier b later s, beats = earlier ++ b :: later →
    (e.play d w earlier).1.session = some s →
    (Agenda.ofBeat (e.play d w earlier) b s).NeverFaultsOnCall s.program
      (s.moment.after (frameTime b.seconds))

theorem play_unfolds {e : Engine} {d d' : Document} {w : World}
    (hstart : PlayUnfolds (e.start d w) (e.start d' w)) (beats : List Beat)
    (h : e.NeverFaultsOnCall d w beats) : PlayUnfolds (e.play d w beats) (e.play d' w beats) := by
  induction beats using List.reverseRecOn with
  | nil => exact hstart
  | append_singleton beats b ih =>
    have hearlier : e.NeverFaultsOnCall d w beats := by
      refine ⟨h.start, fun earlier b' later s hbeats => h.update earlier b' (later ++ [b]) s ?_⟩
      rw [hbeats, List.append_assoc, List.cons_append]
    rw [play_concat, play_concat]
    exact (ih hearlier).beat b fun s hs => (h.update beats b [] s rfl hs).staysShallow

end Engine

end BlockStudio.Script
