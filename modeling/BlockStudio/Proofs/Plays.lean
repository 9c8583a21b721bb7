import BlockStudio.Proofs.Books
import BlockStudio.Proofs.Termination
import BlockStudio.Script.Engine

/-!
Plays: a session begins with a document and goes on for some frames, and the game may change before
each of them. Two plays are compared agenda by agenda. An agenda comes to one end only, and where a
relation of agendas is kept by their steps, their ends are related too.
-/
namespace BlockStudio.Script

/-- What happens to a session in one frame: the game changes from outside, and then some time
passes. -/
structure Beat where
  change : World → World
  seconds : Float

namespace Engine

/-- The program that an engine runs for a document. -/
abbrev programOf (e : Engine) (d : Document) : Program :=
  .ofHandlers e.limits (Handler.ofDocument d)

def beat (r : Engine × World) (b : Beat) : Engine × World := r.1.update b.seconds (b.change r.2)

/-- Begins a session with a document and lets it go on for some frames. -/
def play (e : Engine) (d : Document) (w : World) (beats : List Beat) : Engine × World :=
  beats.foldl beat (e.start d w)

theorem play_concat (e : Engine) (d : Document) (w : World) (beats : List Beat) (b : Beat) :
    e.play d w (beats ++ [b]) = beat (e.play d w beats) b := by
  simp [play]

theorem beat_of_session {r : Engine × World} {s : Session} (h : r.1.session = some s) (b : Beat) :
    beat r b = r.1.resume
      (s.advance b.seconds (s.state r.1.lastTaskId r.1.faults r.1.random (b.change r.2))) := by
  simp only [beat, update, h]

end Engine

/-- The work of a session in a frame of a play. -/
def Agenda.ofBeat (r : Engine × World) (b : Beat) (s : Session) : Agenda :=
  ofAdvance s b.seconds (s.state r.1.lastTaskId r.1.faults r.1.random (b.change r.2))

section
variable {p : Program} {m : Moment} {a b c : Agenda}

theorem Agenda.next_of_done (h : a.duties = []) : a.next p m = a := by
  simp only [next, h]

theorem Agenda.iterate_next_of_done (h : a.duties = []) (n : Nat) : (Agenda.next p m)^[n] a = a :=
  Function.iterate_fixed (next_of_done h) n

namespace Reaches

/-- An agenda that can still come to an end comes to the same end from each agenda on the way. -/
theorem onward (h : Reaches p m a c) (hc : c.duties = []) (n : Nat) :
    Reaches p m ((Agenda.next p m)^[n] a) c := by
  obtain ⟨k, rfl⟩ := h
  refine ⟨k, ?_⟩
  rw [← Function.iterate_add_apply, Nat.add_comm, Function.iterate_add_apply,
    Agenda.iterate_next_of_done hc]

theorem eq_of_done (h : Reaches p m a b) (ha : a.duties = []) : b = a := by
  obtain ⟨n, rfl⟩ := h
  exact Agenda.iterate_next_of_done ha n

theorem unique (hb : Reaches p m a b) (hbdone : b.duties = []) (hc : Reaches p m a c)
    (hcdone : c.duties = []) :
    b = c := by
  obtain ⟨n, rfl⟩ := hb
  exact ((hc.onward hcdone n).eq_of_done hbdone).symm

/-- Where each step of one agenda is met by steps of the other that keep a relation, their ends are
related. -/
theorem simulate {p' : Program} {m' : Moment} {R : Agenda → Agenda → Prop}
    (hstep : ∀ a b, R a b → ∃ b', Reaches p' m' b b' ∧ R (a.next p m) b')
    (h : Reaches p m a c) (hab : R a b) :
    ∃ c', Reaches p' m' b c' ∧ R c c' := by
  obtain ⟨n, rfl⟩ := h
  induction n generalizing a b with
  | zero => exact ⟨b, .refl b, hab⟩
  | succ n ih =>
    obtain ⟨b', hreach, hnext⟩ := hstep a b hab
    obtain ⟨c', hreach', hend⟩ := ih hnext
    exact ⟨c', hreach.trans hreach', by rwa [Function.iterate_succ_apply]⟩

end Reaches

end

/-- The state with other waiting tasks and another counter of task ids. -/
def State.withTasks (s : State) (pending : List Task) (lastTaskId : Nat) : State :=
  { s with pending, lastTaskId }

def Progress.map (f : State → State) : Progress → Progress
  | .finished s => .finished (f s)
  | .suspended wake stack s => .suspended wake stack (f s)
  | .running stack s => .running stack (f s)

section
variable {p : Program} {m : Moment} {origin : String} (s : State) (pending : List Task)
    (lastTaskId : Nat)

theorem State.store_withTasks (name : String) (value : Float) :
    (s.withTasks pending lastTaskId).store name value =
      (s.store name value).withTasks pending lastTaskId := by
  simp only [State.store]
  split <;> rfl

theorem Effect.write?_withTasks (e : Effect) :
    e.write? (s.withTasks pending lastTaskId) = e.write? s := by
  cases e <;> rfl

theorem watchedWrite?_withTasks (stack : Stack) :
    watchedWrite? p (s.withTasks pending lastTaskId) stack = watchedWrite? p s stack := by
  unfold watchedWrite?
  split
  · rw [Effect.write?_withTasks]
  · rfl

/-- Without watchers an effect does not see the tasks. -/
theorem perform_withTasks (e : Effect) :
    perform p m none origin e (s.withTasks pending lastTaskId) =
      (perform p m none origin e s).withTasks pending lastTaskId := by
  have hwrite : ∀ name value, write p m none origin name value (s.withTasks pending lastTaskId) =
      (write p m none origin name value s).withTasks pending lastTaskId := by
    intro name value
    simp only [write, State.store_withTasks]
    split <;> rfl
  cases e with
  | setVariable name value =>
    simp only [perform]
    split
    · rfl
    · exact hwrite name value
  | changeVariable name delta =>
    simp only [perform]
    split
    · rfl
    · exact hwrite name _
  | setColor id color =>
    have hworld : (s.withTasks pending lastTaskId).world = s.world := rfl
    simp only [perform, hworld]
    split
    · cases Color.ofText color <;> rfl
    · rfl
  | _ => rfl

theorem act_withTasks (a : Action) (here : Stack) :
    act p m none origin a here (s.withTasks pending lastTaskId) =
      (act p m none origin a here s).map (·.withTasks pending lastTaskId) := by
  cases a with
  | effect e => simp only [act, perform_withTasks, Progress.map]
  | call name =>
    simp only [act]
    split
    · rfl
    · split <;> rfl
  | _ => rfl

theorem advance_withTasks (stack : Stack) :
    advance p m none origin stack (s.withTasks pending lastTaskId) =
      (advance p m none origin stack s).map (·.withTasks pending lastTaskId) := by
  unfold advance
  split
  · rfl
  · rfl
  · exact act_withTasks s pending lastTaskId _ _
  · split
    · rfl
    · split <;> rfl
  · change (if p.limits.loopCeiling ≤ _ || !s.holds _ then _ else _) = _
    split
    · rfl
    · split <;> rfl

end

end BlockStudio.Script
