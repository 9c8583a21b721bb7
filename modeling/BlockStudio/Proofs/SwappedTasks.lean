import BlockStudio.Proofs.Commuting
import BlockStudio.Proofs.Waiting

/-!
Waiting tasks in another order. Without watchers the tasks that wait stand in the order in which
they were put to wait, and to go on with them is to go on with one list of them after the other.
Main statement: two neighbouring lists of tasks that keep to different variables and objects may
change places; a frame then comes to the same state, with the same tasks left to wait, and again
these two lists have changed places.
-/
namespace BlockStudio.Script

/-- The same task under another id, with actions with a property left to do. -/
structure Task.Matches (p : Program) (P : Action → Prop) (t t' : Task) : Prop where
  eq : t' = { t with id := t'.id }
  confined : Confined p P t.stack

/-- Waiting tasks of which two neighbouring lists have changed places, one with actions of each of
two properties. -/
inductive SwappedTasks (p : Program) (P Q : Action → Prop) : List Task → List Task → Prop
  | intro {before before' first first' second second' after after' : List Task}
    (hbefore : List.Forall₂ (Task.Matches p fun _ => True) before before')
    (hfirst : List.Forall₂ (Task.Matches p P) first first')
    (hsecond : List.Forall₂ (Task.Matches p Q) second second')
    (hafter : List.Forall₂ (Task.Matches p fun _ => True) after after') :
    SwappedTasks p P Q (before ++ (first ++ (second ++ after)))
      (before' ++ (second' ++ (first' ++ after')))

section
variable {p : Program} {m : Moment} {P Q : Action → Prop} {R : State → State → Prop} {s s' : State}

theorem run_none_tasks (origin : String) (stack : Stack) (s : State) :
    (run p m none origin stack s).1.pending = s.pending ∧
      (run p m none origin stack s).1.lastTaskId = s.lastTaskId := by
  induction hweight : p.weight stack using Nat.strongRecOn generalizing stack s with
  | ind weight ih =>
    subst hweight
    have htasks := @advance_none_tasks p m origin stack s
    cases hstep : advance p m none origin stack s with
    | finished s' =>
      rw [hstep] at htasks
      rwa [run_of_finished hstep]
    | suspended wake stack' s' =>
      rw [hstep] at htasks
      rwa [run_of_suspended hstep]
    | running stack' s' =>
      rw [hstep] at htasks
      obtain ⟨hpending, hlast⟩ := ih _ (advance_weight hstep) stack' s' rfl
      rw [run_of_running hstep]
      exact ⟨hpending.trans htasks.1, hlast.trans htasks.2⟩

theorem resumeTask_kept (kept : List Task) (t : Task) (s : State) :
    resumeTask p m kept t s = (kept ++ (resumeTask p m [] t s).1, (resumeTask p m [] t s).2) := by
  simp only [resumeTask]
  split
  · split
    · rw [List.append_nil]
    · rfl
  · rfl

theorem resumeTasks_kept (kept ts : List Task) (s : State) :
    resumeTasks p m kept ts s =
      (kept ++ (resumeTasks p m [] ts s).1, (resumeTasks p m [] ts s).2) := by
  induction ts generalizing kept s with
  | nil => simp only [resumeTasks, List.append_nil]
  | cons t ts ih =>
    simp only [resumeTasks]
    rw [resumeTask_kept, ih, ih (resumeTask p m [] t s).1, List.append_assoc]

theorem resumeTasks_append (ts us : List Task) (s : State) :
    resumeTasks p m [] (ts ++ us) s =
      ((resumeTasks p m [] ts s).1 ++ (resumeTasks p m [] us (resumeTasks p m [] ts s).2).1,
        (resumeTasks p m [] us (resumeTasks p m [] ts s).2).2) := by
  induction ts generalizing s with
  | nil => rfl
  | cons t ts ih =>
    simp only [List.cons_append, resumeTasks]
    rw [resumeTasks_kept _ (ts ++ us), ih, resumeTasks_kept (resumeTask p m [] t s).1 ts]
    simp only [List.append_assoc]

/-- The tasks that go on waiting are some of those that waited, in the same order. -/
theorem ids_resumeTasks (ts : List Task) (s : State) :
    ((resumeTasks p m [] ts s).1.map Task.id).Sublist (ts.map Task.id) := by
  induction ts generalizing s with
  | nil => exact List.Sublist.refl _
  | cons t ts ih =>
    have hone : ((resumeTask p m [] t s).1.map Task.id).Sublist [t.id] := by
      simp only [resumeTask]
      split
      · split
        · exact List.nil_sublist _
        · exact List.Sublist.refl _
      · exact List.Sublist.refl _
    simp only [resumeTasks]
    rw [resumeTasks_kept, List.map_append, List.map_cons, ← List.singleton_append]
    exact hone.append (ih _)

theorem forall₂_matches {ts : List Task} (h : ∀ t ∈ ts, Confined p P t.stack) :
    List.Forall₂ (Task.Matches p P) ts ts :=
  List.forall₂_same.2 fun t ht => ⟨rfl, h t ht⟩

variable (hp : ∀ name, p.watchers.get? name = none)
include hp

theorem run_of_unwatched (cascade : Cascade) (origin : String) (stack : Stack) (s : State) :
    run p m cascade origin stack s = run p m none origin stack s := by
  induction hweight : p.weight stack using Nat.strongRecOn generalizing stack s with
  | ind weight ih =>
    subst hweight
    have hsame : advance p m cascade origin stack s = advance p m none origin stack s :=
      advance_of_unwatched cascade (watchedWrite?_eq_none hp s stack)
    cases hstep : advance p m none origin stack s with
    | finished s' => rw [run_of_finished (hsame.trans hstep), run_of_finished hstep]
    | suspended wake stack' s' => rw [run_of_suspended (hsame.trans hstep), run_of_suspended hstep]
    | running stack' s' =>
      rw [run_of_running (hsame.trans hstep), run_of_running hstep]
      exact ih _ (advance_weight hstep) stack' s' rfl

theorem resumeTask_of_due {t : Task} (hdue : t.wake.isDue m = true) (s : State) :
    resumeTask p m [] t s =
      ((taskOf t.id t.origin (run p m none t.origin t.stack s).2).toList,
        (run p m none t.origin t.stack s).1) := by
  simp only [resumeTask, run_of_unwatched hp, if_pos hdue]
  cases (run p m none t.origin t.stack s).2 <;> rfl

theorem resumeTasks_tasks (ts : List Task) (s : State) :
    (resumeTasks p m [] ts s).2.pending = s.pending ∧
    (resumeTasks p m [] ts s).2.lastTaskId = s.lastTaskId := by
  induction ts generalizing s with
  | nil => exact ⟨rfl, rfl⟩
  | cons t ts ih =>
    have hone : (resumeTask p m [] t s).2.pending = s.pending ∧
        (resumeTask p m [] t s).2.lastTaskId = s.lastTaskId := by
      by_cases hdue : t.wake.isDue m = true
      · rw [resumeTask_of_due hp hdue]
        exact run_none_tasks t.origin t.stack s
      · rw [resumeTask, if_neg hdue]
        exact ⟨rfl, rfl⟩
    simp only [resumeTasks]
    rw [resumeTasks_kept]
    exact ⟨(ih _).1.trans hone.1, (ih _).2.trans hone.2⟩

theorem resumeTask_keeps (hR : Keeps p P R) {t t' : Task} (ht : t.Matches p P t') (h : R s s') :
    List.Forall₂ (Task.Matches p P) (resumeTask p m [] t s).1 (resumeTask p m [] t' s').1 ∧
      R (resumeTask p m [] t s).2 (resumeTask p m [] t' s').2 := by
  obtain ⟨hruns, hsame, hrest⟩ := run_keeps m t.origin hR ht.confined h
  rw [ht.eq]
  by_cases hdue : t.wake.isDue m = true
  · rw [resumeTask_of_due hp hdue, resumeTask_of_due hp (t := { t with id := t'.id }) hdue, hsame]
    refine ⟨?_, hruns⟩
    cases hstop : (run p m none t.origin t.stack s).2 with
    | none => exact .nil
    | some stop => exact .cons ⟨rfl, hrest _ _ hstop⟩ .nil
  · rw [resumeTask, resumeTask, if_neg hdue, if_neg hdue]
    exact ⟨.cons ⟨rfl, ht.confined⟩ .nil, h⟩

/-- To go on with the same tasks keeps what their actions keep, and leaves the same tasks. -/
theorem resumeTasks_keeps (hR : Keeps p P R) {ts ts' : List Task}
    (hts : List.Forall₂ (Task.Matches p P) ts ts') (h : R s s') :
    List.Forall₂ (Task.Matches p P) (resumeTasks p m [] ts s).1 (resumeTasks p m [] ts' s').1 ∧
      R (resumeTasks p m [] ts s).2 (resumeTasks p m [] ts' s').2 := by
  induction hts generalizing s s' with
  | nil => exact ⟨.nil, h⟩
  | @cons t t' ts ts' ht _ ih =>
    obtain ⟨hkept, hone⟩ := resumeTask_keeps (m := m) hp hR ht h
    obtain ⟨hlater, hall⟩ := ih hone
    simp only [resumeTasks]
    rw [resumeTasks_kept, resumeTasks_kept (resumeTask p m [] t' s').1]
    exact ⟨List.rel_append hkept hlater, hall⟩

theorem madeOf_resumeTasks {ts : List Task} (h : ∀ t ∈ ts, Confined p P t.stack) :
    MadeOf p P fun s => (resumeTasks p m [] ts s).2 :=
  fun _ hR _ _ hs => (resumeTasks_keeps hp hR (forall₂_matches h) hs).2

/-- Two lists of tasks that keep to different variables and objects may go on in either order. What
the second list does goes unnoticed by the first, and the other way round. -/
theorem resumeTasks_comm (h : Apart P Q) {first first' second second' : List Task}
    (hfirst : List.Forall₂ (Task.Matches p P) first first')
    (hsecond : List.Forall₂ (Task.Matches p Q) second second') (hs : s.Alike s') {t t' : State}
    (ht : (resumeTasks p m [] first s).2.Alike t)
    (ht' : (resumeTasks p m [] second' s').2.Alike t') :
    List.Forall₂ (Task.Matches p P)
      (resumeTasks p m [] first s).1 (resumeTasks p m [] first' t').1 ∧
      List.Forall₂ (Task.Matches p Q)
        (resumeTasks p m [] second t).1 (resumeTasks p m [] second' s').1 ∧
      (resumeTasks p m [] second t).2.Alike (resumeTasks p m [] first' t').2 := by
  have hconfined : ∀ {P : Action → Prop} {ts ts' : List Task},
      List.Forall₂ (Task.Matches p P) ts ts' →
      ∀ t ∈ ts, Confined p P t.stack := by
    intro P ts ts' hts t ht
    induction hts with
    | nil => simp at ht
    | cons hhead _ ih =>
      rcases List.mem_cons.1 ht with rfl | ht
      · exact hhead.confined
      · exact ih ht
  have hsecondUnnoticed := (madeOf_resumeTasks (m := m) hp (hconfined hsecond)).unnoticed hp h
  have hfirstUnnoticed := (madeOf_resumeTasks (m := m) hp (hconfined hfirst)).unnoticed hp h.symm
  obtain ⟨-, hmiddle⟩ := resumeTasks_keeps (m := m) hp (keeps_alike p Q) hsecond hs
  obtain ⟨hfirstKept, hend⟩ := resumeTasks_keeps (m := m) hp
    (hsecondUnnoticed.keeps fun a ha => h.isLocal a (.inl ha)) hfirst (hmiddle.trans ht')
  obtain ⟨hsecondKept, -⟩ := resumeTasks_keeps (m := m) hp
    (hfirstUnnoticed.keeps fun a ha => h.isLocal a (.inr ha)).flip hsecond
      ((hfirstUnnoticed.alike hs.symm).trans ht)
  exact ⟨hfirstKept, hsecondKept, (hsecondUnnoticed.alike ht).symm.trans hend⟩

/-- To go on with swapped tasks comes to the same state, and leaves swapped tasks. The lists before
and after go on from alike states; only the two in the middle need to commute. -/
theorem resumeTasks_swapped (h : Apart P Q) {ts ts' : List Task} (hts : SwappedTasks p P Q ts ts')
    (hs : s.Alike s') :
    SwappedTasks p P Q (resumeTasks p m [] ts s).1 (resumeTasks p m [] ts' s').1 ∧
      (resumeTasks p m [] ts s).2.Alike (resumeTasks p m [] ts' s').2 := by
  obtain ⟨hbefore, hfirst, hsecond, hafter⟩ := hts
  obtain ⟨hbeforeKept, hbeforeEnd⟩ := resumeTasks_keeps (m := m) hp (keeps_alike p _) hbefore hs
  obtain ⟨hfirstKept, hsecondKept, hmiddle⟩ :=
    resumeTasks_comm (m := m) hp h hfirst hsecond hbeforeEnd (.refl _) (.refl _)
  obtain ⟨hafterKept, hend⟩ := resumeTasks_keeps (m := m) hp (keeps_alike p _) hafter hmiddle
  simp only [resumeTasks_append]
  exact ⟨.intro hbeforeKept hfirstKept hsecondKept hafterKept, hend⟩

end

end BlockStudio.Script
