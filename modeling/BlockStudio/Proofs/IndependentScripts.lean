import BlockStudio.Proofs.Courses
import BlockStudio.Proofs.SwappedTasks

/-!
Scripts that share no variable and no object. Main statement: it does not matter which of two such
scripts a document starts first. Whatever else the document has but watchers, and whatever happens
to the game between the frames, the variables, the objects and what the game keeps track of are the
same after each frame, and as many tasks wait.
-/
namespace BlockStudio.Script

/-- The waiting tasks stand in the order of their ids, and the next id is not below theirs. -/
structure State.Ordered (s : State) : Prop where
  sorted : s.pending.Pairwise fun t u => t.id ≤ u.id
  given : ∀ t ∈ s.pending, t.id ≤ Number.countUp s.lastTaskId 1

/-- Two states that are alike to scripts, of which the waiting tasks are swapped. -/
structure Swapped (p : Program) (P Q : Action → Prop) (s s' : State) : Prop where
  alike : s.Alike s'
  tasks : SwappedTasks p P Q s.pending s'.pending
  ordered : s.Ordered
  ordered' : s'.Ordered

def freshTask (id : Nat) (origin : String) (actions : List Action) : Task :=
  ⟨id, origin, [.begin actions], .atFrame 0⟩

theorem State.pending_alike (s : State) (pending : List Task) : s.Alike { s with pending } :=
  .withUnread s { s.unread with pending }

namespace State.Ordered
variable {s t : State}

theorem congr (h : s.Ordered) (hpending : t.pending = s.pending)
    (hlast : t.lastTaskId = s.lastTaskId) : t.Ordered where
  sorted := hpending ▸ h.sorted
  given := by
    rw [hpending, hlast]
    exact h.given

theorem append (h : s.Ordered) {tasks : List Task} (hpending : t.pending = s.pending ++ tasks)
    (hlast : t.lastTaskId = Number.countUp s.lastTaskId 1)
    (htasks : (tasks.map Task.id).Sublist [Number.countUp s.lastTaskId 1]) : t.Ordered where
  sorted := by
    have hids : ∀ u ∈ tasks, u.id = Number.countUp s.lastTaskId 1 := fun u hu =>
      List.mem_singleton.1 (htasks.subset (List.mem_map_of_mem hu))
    have hnew : tasks.Pairwise fun t u => t.id ≤ u.id :=
      List.pairwise_map.1 ((List.pairwise_singleton _ _).sublist htasks)
    rw [hpending]
    refine List.pairwise_append.2 ⟨h.sorted, hnew, fun u hu v hv => ?_⟩
    rw [hids v hv]
    exact h.given u hu
  given u hu := by
    have hnext := Number.le_countUp 1 (Number.countUp_le_max s.lastTaskId 1)
    rw [hlast]
    rcases List.mem_append.1 (hpending ▸ hu) with hold | hnew
    · exact (h.given u hold).trans hnext
    · rw [List.mem_singleton.1 (htasks.subset (List.mem_map_of_mem hnew))]
      exact hnext

theorem addTimer (h : s.Ordered) (t : Float × String × List Action) : (s.addTimer t).Ordered :=
  h.append rfl rfl (List.Sublist.refl _)

end State.Ordered

section
variable {p : Program} {m : Moment} {P Q : Action → Prop} {s s' : State}

theorem SwappedTasks.append {ts ts' us us' : List Task} (h : SwappedTasks p P Q ts ts')
    (hus : List.Forall₂ (Task.Matches p fun _ => True) us us') :
    SwappedTasks p P Q (ts ++ us) (ts' ++ us') := by
  cases h with
  | @intro before before' first first' second second' after after' hbefore hfirst hsecond hafter =>
    have hlater : List.Forall₂ (Task.Matches p fun _ => True) (after ++ us) (after' ++ us') :=
      List.rel_append hafter hus
    have hswapped := SwappedTasks.intro hbefore hfirst hsecond hlater
    simpa only [List.append_assoc] using hswapped

theorem SwappedTasks.length_eq {ts ts' : List Task} (h : SwappedTasks p P Q ts ts') :
    ts'.length = ts.length := by
  obtain ⟨hbefore, hfirst, hsecond, hafter⟩ := h
  simp only [List.length_append, hbefore.length_eq, hfirst.length_eq,
    hsecond.length_eq, hafter.length_eq]
  omega

theorem Swapped.congr (h : Swapped p P Q s s') {t t' : State} (halike : t.Alike t')
    (htasks : t.pending = s.pending ∧ t.lastTaskId = s.lastTaskId)
    (htasks' : t'.pending = s'.pending ∧ t'.lastTaskId = s'.lastTaskId) : Swapped p P Q t t' where
  alike := halike
  tasks := by
    rw [htasks.1, htasks'.1]
    exact h.tasks
  ordered := h.ordered.congr htasks.1 htasks.2
  ordered' := h.ordered'.congr htasks'.1 htasks'.2

theorem Swapped.emit (h : Swapped p P Q s s') (content : EventContent) :
    Swapped p P Q (s.emit content) (s'.emit content) := by
  have halike : ∀ s : State, s.Alike (s.emit content) := fun s =>
    .withUnread s { s.unread with bus := s.world.bus.emit content }
  exact h.congr ((halike s).symm.trans (h.alike.trans (halike s'))) ⟨s.pending_emit content,
    s.lastTaskId_emit content⟩ ⟨s'.pending_emit content, s'.lastTaskId_emit content⟩

variable (hp : ∀ name, p.watchers.get? name = none)
include hp

/-- To start a list is to go on with a task that is about to begin. -/
theorem start_eq (origin : String) (actions : List Action) (s : State) :
    start p m origin actions s =
      { (resumeTasks p m [] [freshTask s.takeTaskId.1 origin actions] s.takeTaskId.2).2 with
        pending :=
          s.pending ++
            (resumeTasks p m [] [freshTask s.takeTaskId.1 origin actions] s.takeTaskId.2).1 } := by
  have htasks := @run_none_tasks p m origin [.begin actions] s.takeTaskId.2
  have hdue : (freshTask s.takeTaskId.1 origin actions).wake.isDue m = true := by
    simp [freshTask, Wake.isDue]
  have hone : resumeTasks p m [] [freshTask s.takeTaskId.1 origin actions] s.takeTaskId.2 =
      ((taskOf s.takeTaskId.1 origin
        (run p m none origin [.begin actions] s.takeTaskId.2).2).toList,
        (run p m none origin [.begin actions] s.takeTaskId.2).1) :=
    resumeTask_of_due hp hdue s.takeTaskId.2
  simp only [start, launch, run_of_unwatched hp, State.keep_eq, htasks.1, hone]
  rfl

theorem pending_start (origin : String) (actions : List Action) (s : State) :
    (start p m origin actions s).pending =
      s.pending ++ (resumeTasks p m []
        [freshTask s.takeTaskId.1 origin actions] s.takeTaskId.2).1 :=
  congrArg State.pending (start_eq hp origin actions s)

theorem State.Ordered.start (h : s.Ordered) (origin : String) (actions : List Action) :
    (start p m origin actions s).Ordered := by
  rw [start_eq hp]
  exact h.append rfl (resumeTasks_tasks hp _ _).2 (ids_resumeTasks _ _)

theorem Swapped.start (h : Swapped p P Q s s') (origin : String) (actions : List Action) :
    Swapped p P Q (start p m origin actions s) (start p m origin actions s') := by
  have htaken : s.takeTaskId.2.Alike s'.takeTaskId.2 := by
    rw [h.alike]
    rfl
  have hfresh :
      List.Forall₂ (Task.Matches p fun _ => True) [freshTask s.takeTaskId.1 origin actions]
      [freshTask s'.takeTaskId.1 origin actions] :=
    .cons ⟨rfl, confined_begin (.trivial p actions)⟩ .nil
  obtain ⟨hkept, hend⟩ := resumeTasks_keeps (m := m) hp (keeps_alike p _) hfresh htaken
  refine ⟨?_, ?_, h.ordered.start hp origin actions, h.ordered'.start hp origin actions⟩
  · rw [start_eq hp, start_eq hp]
    exact (State.pending_alike _ _).symm.trans (hend.trans (State.pending_alike _ _))
  · rw [start_eq hp, start_eq hp]
    exact h.tasks.append hkept

theorem Swapped.fireAll (h : Swapped p P Q s s') (fired : List (String × List Action)) :
    Swapped p P Q (fireAll p m fired s) (fireAll p m fired s') := by
  induction fired generalizing s s' with
  | nil => exact h
  | cons e fired ih => exact ih ((h.emit (.triggerFired e.1)).start hp e.1 e.2)

/-- Tasks in the order of their ids stay in the order in which they were put to wait. What is kept
is a sublist of what waited, so to sort it again changes nothing. -/
theorem resumeDue_eq (h : s.Ordered) :
    resumeDue p m s =
      { (resumeTasks p m [] s.pending { s with pending := [] }).2 with
        pending := (resumeTasks p m [] s.pending { s with pending := [] }).1 } := by
  have hids := ids_resumeTasks (p := p) (m := m) s.pending { s with pending := [] }
  have hsorted : (resumeTasks p m [] s.pending { s with pending := [] }).1.Pairwise
      fun t u => t.id ≤ u.id :=
    List.pairwise_map.1 ((List.pairwise_map.2 h.sorted).sublist hids)
  have hpending : (resumeTasks p m [] s.pending { s with pending := [] }).2.pending = [] :=
    (resumeTasks_tasks hp s.pending { s with pending := [] }).1
  simp only [resumeDue, hpending, List.append_nil]
  rw [List.mergeSort_of_pairwise (hsorted.imp fun hle => decide_eq_true hle)]

theorem State.Ordered.resumeDue (h : s.Ordered) : (resumeDue p m s).Ordered := by
  have hids := ids_resumeTasks (p := p) (m := m) s.pending { s with pending := [] }
  have hlast := (resumeTasks_tasks (m := m) hp s.pending { s with pending := [] }).2
  rw [resumeDue_eq hp h]
  refine ⟨List.pairwise_map.1 ((List.pairwise_map.2 h.sorted).sublist hids), fun t ht => ?_⟩
  obtain ⟨u, hu, hid⟩ := List.mem_map.1 (hids.subset (List.mem_map_of_mem ht))
  rw [← hid, hlast]
  exact h.given u hu

theorem Swapped.resumeDue (hPQ : Apart P Q) (h : Swapped p P Q s s') :
    Swapped p P Q (resumeDue p m s) (resumeDue p m s') := by
  have hempty : ({ s with pending := [] } : State).Alike { s' with pending := [] } :=
    (s.pending_alike []).symm.trans (h.alike.trans (s'.pending_alike []))
  obtain ⟨htasks, hend⟩ := resumeTasks_swapped (m := m) hp hPQ h.tasks hempty
  refine ⟨?_, ?_, h.ordered.resumeDue hp, h.ordered'.resumeDue hp⟩
  · rw [resumeDue_eq hp h.ordered, resumeDue_eq hp h.ordered']
    exact (State.pending_alike _ _).symm.trans (hend.trans (State.pending_alike _ _))
  · rw [resumeDue_eq hp h.ordered, resumeDue_eq hp h.ordered']
    exact htasks

/-- Two lists that keep to different variables and objects may start in either order. Each list is a
task that begins; in the second order the two tasks have the ids of each other. -/
theorem swapped_startAll {A B : List Action} (hPQ : Apart (p.Uses A) (p.Uses B))
    (origin origin' : String) (h : s.Ordered) :
    Swapped p (p.Uses A) (p.Uses B) (startAll p m [(origin, A), (origin', B)] s)
      (startAll p m [(origin', B), (origin, A)] s) := by
  let s₁ : State := start p m origin A s
  let s₁' : State := start p m origin' B s
  have htaken : ∀ s : State, s.Alike s.takeTaskId.2 := fun s =>
    .withUnread s { s.unread with lastTaskId := s.takeTaskId.1 }
  have hstarted : ∀ origin actions,
      (resumeTasks p m [] [freshTask s.takeTaskId.1 origin actions] s.takeTaskId.2).2.Alike
        (start p m origin actions s).takeTaskId.2 := by
    intro origin actions
    refine .trans ?_ (htaken _)
    rw [start_eq hp]
    exact State.pending_alike _ _
  have hfresh : ∀ id id' origin actions,
      List.Forall₂ (Task.Matches p (p.Uses actions))
        [freshTask id origin actions] [freshTask id' origin actions] :=
    fun _ _ _ _ => .cons ⟨rfl, confined_begin fun _ hx => hx⟩ .nil
  obtain ⟨hfirst, hsecond, hend⟩ :=
    resumeTasks_comm (m := m) hp hPQ (hfresh s.takeTaskId.1 s₁'.takeTaskId.1 origin A)
      (hfresh s₁.takeTaskId.1 s.takeTaskId.1 origin' B) (.refl s.takeTaskId.2) (hstarted origin A)
      (hstarted origin' B)
  refine ⟨?_, ?_, (h.start hp origin A).start hp origin' B,
    (h.start hp origin' B).start hp origin A⟩
  · change (start p m origin' B s₁).Alike (start p m origin A s₁')
    rw [start_eq hp, start_eq hp]
    exact (State.pending_alike _ _).symm.trans (hend.trans (State.pending_alike _ _))
  · have hbefore : List.Forall₂ (Task.Matches p fun _ => True) s.pending s.pending :=
      forall₂_matches fun _ _ _ _ => .trivial p _
    have hswapped := SwappedTasks.intro hbefore hfirst hsecond .nil
    change SwappedTasks p _ _ (start p m origin' B s₁).pending (start p m origin A s₁').pending
    rw [pending_start hp origin' B s₁, pending_start hp origin A s₁', pending_start hp origin A s,
      pending_start hp origin' B s, List.append_assoc, List.append_assoc]
    simpa only [List.append_nil] using hswapped

end

namespace State.Alike
variable {s s' : State}

theorem score_eq (h : s.Alike s') : s'.world.score = s.world.score := by
  rw [h]
  rfl

theorem touchesPlayer_eq (h : s.Alike s') : s'.world.touchesPlayer = s.world.touchesPlayer := by
  rw [h]
  rfl

theorem isKeyDown_eq (h : s.Alike s') : s'.world.isKeyDown = s.world.isKeyDown := by
  rw [h]
  rfl

end State.Alike

/-- Two sessions with the same program that have come to the same frame, with the same triggers
left. -/
structure Session.Parallel (r r' : Session) : Prop where
  program : r'.program = r.program
  moment : r'.moment = r.moment
  touches : r'.touches = r.touches
  keys : r'.keys = r.keys
  scores : r'.scores = r.scores

section
variable {r r' : Session} {P Q : Action → Prop} {s s' : State}

/-- A frame sees nothing of a session but its program, its moment and its triggers. -/
theorem Session.Parallel.advance_eq (h : r.Parallel r') (dt : Float) (s : State) :
    r'.advance dt s = r.advance dt s := by
  obtain ⟨_, _, _, _, _, _, _, _⟩ := r
  obtain ⟨_, _, _, _, _, _, _, _⟩ := r'
  obtain ⟨rfl, rfl, rfl, rfl, rfl⟩ := h
  rfl

theorem Swapped.mirrored (h : Swapped r.program P Q s s') (dt : Float) :
    Swapped r.program P Q (s.ageOverlay dt).mirrorScore (s'.ageOverlay dt).mirrorScore := by
  refine h.congr ?_ ⟨rfl, rfl⟩ ⟨rfl, rfl⟩
  rw [h.alike]
  rfl

variable (hp : ∀ name, r.program.watchers.get? name = none)
include hp

theorem Swapped.beforeTouches (h : Swapped r.program P Q s s') (dt : Float) :
    Swapped r.program P Q (r.beforeTouches dt s) (r.beforeTouches dt s') := by
  have hmirrored := h.mirrored (frameTime dt)
  simp only [Session.beforeTouches, hmirrored.alike.score_eq]
  exact hmirrored.fireAll hp _

theorem Swapped.beforeKeys (h : Swapped r.program P Q s s') (dt : Float) :
    Swapped r.program P Q (r.beforeKeys dt s) (r.beforeKeys dt s') := by
  have hscored := h.beforeTouches hp dt
  simp only [Session.beforeKeys, hscored.alike.touchesPlayer_eq]
  exact hscored.fireAll hp _

theorem Swapped.beforeLook (h : Swapped r.program P Q s s') (dt : Float) :
    Swapped r.program P Q (r.beforeLook dt s) (r.beforeLook dt s') := by
  have htouched := h.beforeKeys hp dt
  have hlook : ∀ s, r.beforeLook dt s = Script.fireAll r.program (r.moment.after (frameTime dt))
      (risen (Trigger.label ∘ .key) (r.beforeKeys dt s).world.isKeyDown r.keys)
        (r.beforeKeys dt s) := fun _ => rfl
  rw [hlook, hlook, htouched.alike.isKeyDown_eq]
  exact htouched.fireAll hp _

/-- Frames of two parallel sessions with swapped tasks end with swapped tasks, and the sessions stay
parallel. -/
theorem Swapped.advance (hPQ : Apart P Q) (hr : r.Parallel r') (dt : Float)
    (h : Swapped r.program P Q s s') :
    (r.advance dt s).1.Parallel (r'.advance dt s').1 ∧
      Swapped r.program P Q (r.advance dt s).2 (r'.advance dt s').2 := by
  rw [hr.advance_eq]
  constructor
  · rw [Session.advance_fst, Session.advance_fst r dt s']
    exact {
      program := rfl
      moment := rfl
      touches := by rw [(h.beforeTouches hp dt).alike.touchesPlayer_eq]
      keys := by rw [(h.beforeKeys hp dt).alike.isKeyDown_eq]
      scores := by rw [(h.mirrored (frameTime dt)).alike.score_eq] }
  · rw [Session.advance_eq_resumeDue, Session.advance_eq_resumeDue]
    exact (h.beforeLook hp dt).resumeDue hp hPQ

end

/-- What changes outside does not depend on the events that were reported. -/
def Beat.IgnoresEvents (b : Beat) : Prop :=
  ∀ w bus, ∃ bus', b.change { w with bus } = { b.change w with bus := bus' }

/-- Two plays of a program in parallel sessions, of which the waiting tasks are swapped. -/
structure PlaySwapped (p : Program) (P Q : Action → Prop) (r r' : Engine × World) : Prop where
  sessions : ∃ s s', r.1.session = some s ∧ r'.1.session = some s' ∧ s.program = p ∧ s.Parallel s'
  states : Swapped p P Q (r.1.state r.2) (r'.1.state r'.2)

/-- Two plays that show the same variables and objects, and the same collections and goal, and in
which as many tasks wait. -/
structure ShowsSame (r r' : Engine × World) : Prop where
  variableValues : r'.1.variableValues = r.1.variableValues
  objects : r'.2.objects = r.2.objects
  tracking : r'.2.tracking = r.2.tracking
  pendingCount : r'.1.pendingCount = r.1.pendingCount

namespace PlaySwapped
variable {p : Program} {P Q : Action → Prop} {r r' : Engine × World}

theorem showsSame (h : PlaySwapped p P Q r r') : ShowsSame r r' := by
  obtain ⟨s, s', hs, hs', -, -⟩ := h.sessions
  have hworld : r'.2 = { r.2 with bus := r'.2.bus } := congrArg State.world h.states.alike
  exact {
    variableValues := h.states.alike.variableValues_eq
    objects := by rw [hworld]
    tracking := by rw [hworld]
    pendingCount := by
      rw [Engine.pendingCount_eq hs r.2, Engine.pendingCount_eq hs' r'.2]
      exact h.states.tasks.length_eq }

/-- A beat keeps two plays swapped: the games differ in their events at most, and so they do after
the change. -/
theorem beat (hp : ∀ name, p.watchers.get? name = none) (hPQ : Apart P Q)
    (h : PlaySwapped p P Q r r') {b : Beat} (hb : b.IgnoresEvents) :
    PlaySwapped p P Q (Engine.beat r b) (Engine.beat r' b) := by
  obtain ⟨⟨s, s', hs, hs', rfl, hparallel⟩, hstates⟩ := h
  have hworld : r'.2 = { r.2 with bus := r'.2.bus } := congrArg State.world hstates.alike
  have hchanged : Swapped s.program P Q (r.1.state (b.change r.2))
      (r'.1.state (b.change r'.2)) := by
    refine hstates.congr ?_ ⟨rfl, rfl⟩ ⟨rfl, rfl⟩
    obtain ⟨bus', hbus'⟩ := hb r.2 r'.2.bus
    have hvariables : r'.1.variableValues = r.1.variableValues := hstates.alike.variableValues_eq
    have hrandom : r'.1.random = r.1.random := hstates.alike.random_eq
    rw [hworld, hbus', State.Alike]
    simp only [Engine.state, hvariables, hrandom]
    rfl
  obtain ⟨hafter, hend⟩ := hchanged.advance hp hPQ hparallel b.seconds
  obtain ⟨hsession, hstate⟩ := Engine.session_beat hs b
  obtain ⟨hsession', hstate'⟩ := Engine.session_beat hs' b
  refine ⟨⟨_, _, hsession, hsession', rfl, hafter⟩, ?_⟩
  rw [hstate, hstate']
  exact hend

end PlaySwapped

/-- A document but for two of its chains. -/
structure Surroundings where
  front : List DocumentChain
  middle : List DocumentChain
  back : List DocumentChain
  variableNames : List String

namespace Surroundings

def document (r : Surroundings) (a b : DocumentChain) : Document :=
  ⟨r.front ++ a :: r.middle ++ b :: r.back, r.variableNames⟩

def handlers (r : Surroundings) : List Handler :=
  (r.front ++ r.middle ++ r.back).filterMap Handler.ofChain?

variable {r : Surroundings} {a b : DocumentChain} {A B : List Action}
  (ha : Handler.ofChain? a = some ⟨.start, A⟩) (hb : Handler.ofChain? b = some ⟨.start, B⟩)
include ha hb

/-- When two lists that start at once change places, the handlers with any other trigger stay. -/
theorem filterMap_swap {α : Type} {f : Handler → Option α}
    (hf : ∀ actions, f ⟨.start, actions⟩ = none) :
    (Handler.ofDocument (r.document b a)).filterMap f =
      (Handler.ofDocument (r.document a b)).filterMap f := by
  simp [Handler.ofDocument, document, List.filterMap_append, ha, hb, hf]

theorem program_swap (limits : Limits) :
    Program.ofHandlers limits (Handler.ofDocument (r.document b a)) =
      Program.ofHandlers limits (Handler.ofDocument (r.document a b)) := by
  rw [Program.ofHandlers, filterMap_swap ha hb fun _ => rfl, filterMap_swap ha hb fun _ => rfl]
  rfl

theorem filterMap_document {α : Type} {f : Handler → Option α} (hf : ∀ h ∈ r.handlers, f h = none) :
    (Handler.ofDocument (r.document a b)).filterMap f =
      (f ⟨.start, A⟩).toList ++ (f ⟨.start, B⟩).toList := by
  have hnone : ∀ cs ⊆ r.front ++ r.middle ++ r.back,
      (cs.filterMap Handler.ofChain?).filterMap f = [] :=
    fun cs hcs => List.filterMap_eq_nil_iff.2 fun h hh => hf h (List.filterMap_subset _ hcs hh)
  have hfront := hnone r.front (by simp)
  have hmiddle := hnone r.middle (by simp)
  have hback := hnone r.back (by simp)
  simp only [Handler.ofDocument, document, List.filterMap_append, List.filterMap_cons, ha, hb,
    hfront, hmiddle, hback]
  cases f ⟨.start, A⟩ <;> cases f ⟨.start, B⟩ <;> rfl

end Surroundings

section
variable {r : Surroundings} {a b : DocumentChain} {A B : List Action} {e : Engine} {p : Program}
  (ha : Handler.ofChain? a = some ⟨.start, A⟩) (hb : Handler.ofChain? b = some ⟨.start, B⟩)
  (hstarts : ∀ h ∈ r.handlers, h.trigger ≠ .start) (hprogram : e.programOf (r.document a b) = p)
  (hp : ∀ name, p.watchers.get? name = none) (hPQ : Apart (p.Uses A) (p.Uses B))
include ha hb hstarts hprogram hp hPQ

/-- The plays of two documents that start two scripts in either order begin with swapped tasks. -/
theorem playSwapped_start (w : World) :
    PlaySwapped p (p.Uses A) (p.Uses B) (e.start (r.document a b) w)
      (e.start (r.document b a) w) := by
  have hprogram' : e.programOf (r.document b a) = p :=
    (Surroundings.program_swap ha hb e.limits).trans hprogram
  have hother : ∀ h ∈ r.handlers, h.start? = none := by
    intro h hh
    unfold Handler.start?
    split
    · rename_i hstart
      exact absurd hstart (hstarts h hh)
    · rfl
  let s : State := (Agenda.ofBegin (r.document a b) e.lastTaskId e.random w).state
  have hsame : (Agenda.ofBegin (r.document b a) e.lastTaskId e.random w).state = s := by
    have htimers : (Handler.ofDocument (r.document b a)).filterMap Handler.timer? =
        (Handler.ofDocument (r.document a b)).filterMap Handler.timer? :=
      Surroundings.filterMap_swap ha hb fun _ => rfl
    simp only [s, Agenda.ofBegin, htimers]
    rfl
  have hordered : s.Ordered :=
    List.foldlRecOn _ State.addTimer (motive := State.Ordered) ⟨.nil, by simp [State.mirrorScore]⟩
      fun _ hs t _ => hs.addTimer t
  have hstates :=
    swapped_startAll (m := .start) hp hPQ Trigger.start.label Trigger.start.label hordered
  refine ⟨⟨_, _, rfl, rfl, hprogram, ?_⟩, ?_⟩
  · exact {
      program := hprogram'.trans hprogram.symm
      moment := rfl
      touches := congrArg bindings (Surroundings.filterMap_swap ha hb fun _ => rfl)
      keys := congrArg bindings (Surroundings.filterMap_swap ha hb fun _ => rfl)
      scores := Surroundings.filterMap_swap ha hb fun _ => rfl }
  · have hbegin : ∀ d, (e.start d w).1.state (e.start d w).2 = startAll (e.programOf d) .start
        ((Handler.ofDocument d).filterMap Handler.start?)
          (Agenda.ofBegin d e.lastTaskId e.random w).state :=
      fun _ => rfl
    rw [hbegin, hbegin, hsame, hprogram, hprogram', Surroundings.filterMap_document ha hb hother,
      Surroundings.filterMap_document hb ha hother]
    exact hstates

theorem playSwapped_play (w : World) (beats : List Beat) (hbeats : ∀ b ∈ beats, b.IgnoresEvents) :
    PlaySwapped p (p.Uses A) (p.Uses B) (e.play (r.document a b) w beats)
      (e.play (r.document b a) w beats) := by
  induction beats using List.reverseRecOn with
  | nil => exact playSwapped_start ha hb hstarts hprogram hp hPQ w
  | append_singleton beats beat ih =>
    obtain ⟨hbefore, hbeat⟩ := List.forall_mem_append.1 hbeats
    rw [Engine.play_concat, Engine.play_concat]
    exact (ih hbefore).beat hp hPQ (hbeat beat (List.mem_singleton_self beat))

end

/-- It does not matter which of two scripts that share no variable and no object starts first. A
document has two lists that start at once, no watcher, and anything else besides. All that the two
lists may come to, in functions as well, keeps to variables and objects, and those of the one list
are not those of the other. Then, whichever list comes first, after the beginning and after each
frame the variables, the objects, the collections and the goal of the game are the same, and as many
tasks wait. -/
theorem Engine.play_independent_scripts (e : Engine) {r : Surroundings} {a b : DocumentChain}
    {A B : List Action} (ha : Handler.ofChain? a = some ⟨.start, A⟩)
    (hb : Handler.ofChain? b = some ⟨.start, B⟩)
    (hothers : ∀ h ∈ r.handlers, h.trigger ≠ .start ∧ ∀ name, h.trigger ≠ .variableChanged name)
    (hPQ : Apart ((e.programOf (r.document a b)).Uses A) ((e.programOf (r.document a b)).Uses B))
    (w : World) (beats : List Beat) (hbeats : ∀ b ∈ beats, b.IgnoresEvents) :
    ShowsSame (e.play (r.document a b) w beats) (e.play (r.document b a) w beats) := by
  have hwatchers : (Handler.ofDocument (r.document a b)).filterMap Handler.watcher? = [] := by
    refine Surroundings.filterMap_document ha hb fun h hh => ?_
    unfold Handler.watcher?
    split
    · rename_i name hname
      exact absurd hname ((hothers h hh).2 name)
    · rfl
  have hp : ∀ name, (e.programOf (r.document a b)).watchers.get? name = none := by
    intro name
    rw [programOf, Program.ofHandlers, hwatchers]
    rfl
  exact (playSwapped_play ha hb (fun h hh => (hothers h hh).1) rfl hp hPQ w beats hbeats).showsSame

/-- A script that sets a variable, waits and calls a function. -/
def callingChain : DocumentChain :=
  ⟨1, 0, 0, [⟨(), "on_start", .empty, none, none⟩,
    ⟨(), "set_var", .ofList [("var", "x"), ("value", "1")], none, none⟩,
    ⟨(), "wait", .ofList [("seconds", "0.5")], none, none⟩,
    ⟨(), "call_func", .ofList [("name", "f")], none, none⟩]⟩

def countingChain : DocumentChain :=
  ⟨2, 0, 0, [⟨(), "on_start", .empty, none, none⟩,
    ⟨(), "repeat_n", .ofList [("times", "3")],
      some [⟨(), "change_var", .ofList [("var", "y"), ("delta", "1")], none, none⟩], none⟩,
    ⟨(), "destroy_obj", .ofList [("object", "q")], none, none⟩]⟩

def destroyingSurroundings : Surroundings :=
  ⟨[], [⟨3, 0, 0, [⟨(), "define_func", .ofList [("name", "f")], none, none⟩,
    ⟨(), "destroy_obj", .ofList [("object", "p")], none, none⟩]⟩], [], ["x", "y"]⟩

/-- A game in which one collection holds both objects. -/
def platformWorld : World :=
  { World.empty with
    tracking := { Tracking.empty with platforms := ["p", "q"] }
    objects := .ofList [("p", .ofBox .zero), ("q", .ofBox .zero)] }

theorem play_callingChain_countingChain :
    ∃ A B, Handler.ofChain? callingChain = some ⟨.start, A⟩ ∧
      Handler.ofChain? countingChain = some ⟨.start, B⟩ ∧
      (∀ h ∈ destroyingSurroundings.handlers, h.trigger ≠ .start ∧
        ∀ name, h.trigger ≠ .variableChanged name) ∧
      Apart
        (((Engine.ofSeed .standard 7).programOf
          (destroyingSurroundings.document callingChain countingChain)).Uses A)
        (((Engine.ofSeed .standard 7).programOf
          (destroyingSurroundings.document callingChain countingChain)).Uses B) ∧
      (∀ b ∈ [(⟨id, 1⟩ : Beat), ⟨id, 1⟩], b.IgnoresEvents) ∧
      ShowsSame
        ((Engine.ofSeed .standard 7).play
          (destroyingSurroundings.document callingChain countingChain) platformWorld
            [⟨id, 1⟩, ⟨id, 1⟩])
        ((Engine.ofSeed .standard 7).play
          (destroyingSurroundings.document countingChain callingChain) platformWorld
            [⟨id, 1⟩, ⟨id, 1⟩]) := by
  let p : Program :=
    (Engine.ofSeed .standard 7).programOf
      (destroyingSurroundings.document callingChain countingChain)
  obtain ⟨value, seconds, ha⟩ : ∃ value seconds, Handler.ofChain? callingChain =
      some ⟨.start, [.effect (.setVariable "x" value), .wait seconds, .call "f"]⟩ := ⟨_, _, rfl⟩
  obtain ⟨times, delta, hb⟩ : ∃ times delta, Handler.ofChain? countingChain =
      some ⟨.start, [.repeatTimes times [.effect (.changeVariable "y" delta)],
        .effect (.destroy "q")]⟩ := ⟨_, _, rfl⟩
  have hothers : ∀ h ∈ destroyingSurroundings.handlers,
      h.trigger ≠ .start ∧ ∀ name, h.trigger ≠ .variableChanged name := by
    have htriggers : destroyingSurroundings.handlers.map Handler.trigger = [.function "f"] := rfl
    intro h hh
    have hmem : h.trigger ∈ [Trigger.function "f"] := htriggers ▸ List.mem_map_of_mem hh
    rw [List.mem_singleton.1 hmem]
    simp
  have hf : p.functions.get? "f" = some [.effect (.destroy "p")] := rfl
  have hfirst : p.Within (·.KeepsTo ["x"] ["p"]) [.effect (.setVariable "x" value),
      .wait seconds, .call "f"] := by
    refine .cons ⟨rfl, List.Subset.refl _, List.nil_subset _⟩ (by simp [Action.bodies]) (by simp) ?_
    refine .cons ⟨rfl, List.nil_subset _, List.nil_subset _⟩ (by simp [Action.bodies]) (by simp) ?_
    refine .cons ⟨rfl, List.nil_subset _, List.nil_subset _⟩ (by simp [Action.bodies]) ?_ .nil
    rintro name body hname hbody
    cases hname
    obtain rfl := Option.some.inj (hbody.symm.trans hf)
    exact .cons ⟨rfl, List.nil_subset _, List.Subset.refl _⟩
      (by simp [Action.bodies]) (by simp) .nil
  have hsecond : p.Within (·.KeepsTo ["y"] ["q"])
      [.repeatTimes times [.effect (.changeVariable "y" delta)], .effect (.destroy "q")] := by
    refine .cons ⟨rfl, List.nil_subset _, List.nil_subset _⟩
      (List.forall_mem_singleton.2 ?_) (by simp) ?_
    · exact .cons ⟨rfl, List.Subset.refl _, List.nil_subset _⟩
        (by simp [Action.bodies]) (by simp) .nil
    · exact .cons ⟨rfl, List.nil_subset _, List.Subset.refl _⟩
        (by simp [Action.bodies]) (by simp) .nil
  have hPQ : Apart (p.Uses _) (p.Uses _) := apart_of_within hfirst hsecond (by simp) (by simp)
  have hbeats : ∀ b ∈ [(⟨id, 1⟩ : Beat), ⟨id, 1⟩], b.IgnoresEvents := by
    intro b hb w bus
    obtain rfl : b = ⟨id, 1⟩ := by simpa using hb
    exact ⟨bus, rfl⟩
  exact ⟨_, _, ha, hb, hothers, hPQ, hbeats,
    Engine.play_independent_scripts (.ofSeed .standard 7) ha hb hothers hPQ platformWorld _ hbeats⟩

end BlockStudio.Script
