import BlockStudio.Proofs.Outputs

/-!
What a script may come to do. A list uses the actions in it, those in their slots at every depth,
and those of the functions that they call; a run carries out no others. Main statement: a relation
of states that the used actions keep, and that the tests in them do not see, is kept by whole runs,
which stop at the same place.
-/
namespace BlockStudio.Script

def Action.bodies : Action → List (List Action)
  | .whenTrue _ body => [body]
  | .choose _ body otherwise => [body, otherwise]
  | .chance _ body => [body]
  | .repeatTimes _ body => [body]
  | .repeatWhile _ body => [body]
  | _ => []

/-- What an action tests before it goes on. -/
def Action.condition? : Action → Option Condition
  | .whenTrue c _ => some c
  | .choose c _ _ => some c
  | .repeatWhile c _ => some c
  | _ => none

/-- The actions that a list may come to, whatever the tests in it give and however deep it calls. -/
inductive Program.Uses (p : Program) : List Action → Action → Prop
  | here {actions : List Action} {a : Action} (ha : a ∈ actions) : p.Uses actions a
  | inside {actions body : List Action} {a x : Action} (ha : a ∈ actions) (hbody : body ∈ a.bodies)
    (h : p.Uses body x) : p.Uses actions x
  | called {actions body : List Action} {name : String} {x : Action} (ha : .call name ∈ actions)
    (hname : p.functions.get? name = some body) (h : p.Uses body x) : p.Uses actions x

/-- A list uses actions with a property only. -/
def Program.Within (p : Program) (P : Action → Prop) (actions : List Action) : Prop :=
  ∀ x, p.Uses actions x → P x

namespace Program.Within
variable {p : Program} {P : Action → Prop} {actions : List Action}

theorem mono (h : p.Within P actions) {actions' : List Action} (hsub : actions' ⊆ actions) :
    p.Within P actions' := by
  intro x hx
  cases hx with
  | here ha => exact h x (.here (hsub ha))
  | inside ha hbody hx => exact h x (.inside (hsub ha) hbody hx)
  | called ha hname hx => exact h x (.called (hsub ha) hname hx)

theorem tail {a : Action} (h : p.Within P (a :: actions)) : p.Within P actions :=
  h.mono (List.subset_cons_self _ _)

theorem head {a : Action} (h : p.Within P (a :: actions)) : p.Within P [a] :=
  h.mono (List.cons_subset_cons a (List.nil_subset _))

theorem property {a : Action} (h : p.Within P [a]) : P a := h a (.here (List.mem_singleton_self a))

theorem body {a : Action} (h : p.Within P [a]) {body : List Action} (hbody : body ∈ a.bodies) :
    p.Within P body :=
  fun x hx => h x (.inside (List.mem_singleton_self a) hbody hx)

theorem callee {name : String} (h : p.Within P [.call name]) {body : List Action}
    (hname : p.functions.get? name = some body) : p.Within P body :=
  fun x hx => h x (.called (List.mem_singleton_self _) hname hx)

theorem trivial (p : Program) (actions : List Action) : p.Within (fun _ => True) actions :=
  fun _ _ => True.intro

theorem nil : p.Within P [] := by
  intro x hx
  cases hx <;> contradiction

theorem cons {a : Action} (ha : P a) (hbodies : ∀ body ∈ a.bodies, p.Within P body)
    (hcallee : ∀ name body, a = .call name → p.functions.get? name = some body → p.Within P body)
    (h : p.Within P actions) : p.Within P (a :: actions) := by
  intro x hx
  cases hx with
  | here hmem =>
    rcases List.mem_cons.1 hmem with rfl | hmem
    · exact ha
    · exact h x (.here hmem)
  | inside hmem hbody hx =>
    rcases List.mem_cons.1 hmem with rfl | hmem
    · exact hbodies _ hbody x hx
    · exact h x (.inside hmem hbody hx)
  | called hmem hname hx =>
    rcases List.mem_cons.1 hmem with heq | hmem
    · exact hcallee _ _ heq.symm hname x hx
    · exact h x (.called hmem hname hx)

end Program.Within

/-- The actions that a frame still has to go through. A loop with a condition stands for itself. -/
def Frame.actions : Frame → List Action
  | .sequence rest _ => rest
  | .counted body _ _ _ => body
  | .conditional c body _ _ => [.repeatWhile c body]

/-- A stack of which only actions with a property are left. -/
def Confined (p : Program) (P : Action → Prop) (stack : Stack) : Prop :=
  ∀ f ∈ stack, p.Within P f.actions

theorem confined_begin {p : Program} {P : Action → Prop} {actions : List Action}
    (h : p.Within P actions) :
    Confined p P [.begin actions] :=
  List.forall_mem_singleton.2 h

/-- A relation of states that actions with a property keep, and that the tests in them do not
see. -/
structure Keeps (p : Program) (P : Action → Prop) (R : State → State → Prop) : Prop where
  alike : ∀ {s s' t t'}, R s s' → s.Alike t → s'.Alike t' → R t t'
  effect : ∀ {e}, P (.effect e) → ∀ m origin {s s'}, R s s' →
    R (perform p m none origin e s) (perform p m none origin e s')
  holds : ∀ {a c}, P a → a.condition? = some c → ∀ {s s'}, R s s' → s'.holds c = s.holds c
  chance : ∀ {percent body}, P (.chance percent body) → ∀ {s s'}, R s s' →
    s'.random = s.random ∧ R { s with random := s.random.next } { s' with random := s'.random.next }

theorem Keeps.flip {p : Program} {P : Action → Prop} {R : State → State → Prop} (hR : Keeps p P R) :
    Keeps p P fun s s' => R s' s where
  alike h ht ht' := hR.alike h ht' ht
  effect he m origin _ _ h := hR.effect he m origin h
  holds ha hc _ _ h := (hR.holds ha hc h).symm
  chance ha _ _ h := ⟨(hR.chance ha h).1.symm, (hR.chance ha h).2⟩

/-- Two steps with the same result, but for the states they leave. -/
inductive Progress.Agrees (p : Program) (P : Action → Prop) (R : State → State → Prop) :
    Progress → Progress → Prop
  | finished {s s' : State} (h : R s s') : Agrees p P R (.finished s) (.finished s')
  | suspended {s s' : State} (wake : Wake) {stack : Stack}
    (hstack : Confined p P stack) (h : R s s') :
    Agrees p P R (.suspended wake stack s) (.suspended wake stack s')
  | running {s s' : State} {stack : Stack} (hstack : Confined p P stack) (h : R s s') :
    Agrees p P R (.running stack s) (.running stack s')

theorem State.fault_alike (s : State) (m : Moment) (origin : String) (action : ActionKind)
    (message : String) :
    s.Alike (s.fault m origin action message) :=
  .withUnread s { s.unread with faults := s.faults.push ⟨origin, action, message, m.frame⟩ }

section
variable {p : Program} {P : Action → Prop} {R : State → State → Prop} {m : Moment}
    {origin : String} {s s' : State}

theorem act_agrees (hR : Keeps p P R) {a : Action} {here : Stack} (ha : p.Within P [a])
    (hhere : Confined p P here) (h : R s s') :
    (act p m none origin a here s).Agrees p P R (act p m none origin a here s') := by
  have hpush : ∀ {body}, body ∈ a.bodies → Confined p P (.begin body :: here) := fun hbody =>
    List.forall_mem_cons.2 ⟨ha.body hbody, hhere⟩
  have hbranch : ∀ {body}, body ∈ a.bodies → ∀ {t t'}, R t t' → ∀ (taken : Prop) [Decidable taken],
      Progress.Agrees p P R (.running (if taken then .begin body :: here else here) t)
        (.running (if taken then .begin body :: here else here) t') := by
    intro body hbody t t' ht taken _
    split
    · exact .running (hpush hbody) ht
    · exact .running hhere ht
  cases a with
  | effect e => exact .running hhere (hR.effect ha.property m origin h)
  | wait seconds => exact .suspended _ hhere h
  | call name =>
    simp only [act]
    cases hname : p.functions.get? name with
    | none => exact .running hhere h
    | some body =>
      by_cases hdepth : callDepth here < p.limits.maxCallDepth
      · simp only [if_pos hdepth]
        exact .running (List.forall_mem_cons.2 ⟨ha.callee hname, hhere⟩) h
      · simp only [if_neg hdepth]
        exact .running hhere (hR.alike h (s.fault_alike ..) (s'.fault_alike ..))
  | whenTrue c body =>
    simp only [act, hR.holds ha.property rfl h]
    exact hbranch (List.mem_singleton_self body) h _
  | choose c body otherwise =>
    simp only [act, hR.holds ha.property rfl h]
    split
    · exact .running (hpush (by simp [Action.bodies])) h
    · exact .running (hpush (by simp [Action.bodies])) h
  | chance percent body =>
    obtain ⟨hrandom, hdrawn⟩ := hR.chance ha.property h
    simp only [act, hrandom] at hdrawn ⊢
    exact hbranch (List.mem_singleton_self body) hdrawn _
  | repeatTimes times body =>
    exact .running (List.forall_mem_cons.2 ⟨ha.body (List.mem_singleton_self body), hhere⟩) h
  | repeatWhile c body => exact .running (List.forall_mem_cons.2 ⟨ha, hhere⟩) h

theorem advance_agrees (hR : Keeps p P R) {stack : Stack}
    (hstack : Confined p P stack) (h : R s s') :
    (advance p m none origin stack s).Agrees p P R (advance p m none origin stack s') := by
  cases stack with
  | nil => exact .finished h
  | cons f below =>
    obtain ⟨hf, hbelow⟩ := List.forall_mem_cons.1 hstack
    cases f with
    | sequence actions isCall =>
      cases actions with
      | nil => exact .running hbelow h
      | cons a rest => exact act_agrees hR hf.head (List.forall_mem_cons.2 ⟨hf.tail, hbelow⟩) h
    | counted body times done yieldedAt =>
      have hround : ∀ done yieldedAt, Confined p P (.counted body times done yieldedAt :: below) :=
        fun _ _ => List.forall_mem_cons.2 ⟨hf, hbelow⟩
      simp only [advance]
      split
      · exact .running hbelow h
      · split
        · exact .suspended _ (hround _ _) h
        · exact .running (List.forall_mem_cons.2 ⟨hf, hround _ _⟩) h
    | conditional c body done yieldedAt =>
      have hround : ∀ done yieldedAt, Confined p P (.conditional c body done yieldedAt :: below) :=
        fun _ _ => List.forall_mem_cons.2 ⟨hf, hbelow⟩
      simp only [advance, hR.holds hf.property rfl h]
      split
      · exact .running hbelow h
      · split
        · exact .suspended _ (hround _ _) h
        · exact .running
            (List.forall_mem_cons.2 ⟨hf.body (List.mem_singleton_self body), hround _ _⟩) h

/-- Whole runs keep what their actions keep, and stop at the same place. Both runs take the same
steps, so the weight of the one stack bounds them both. -/
theorem run_keeps (m : Moment) (origin : String) (hR : Keeps p P R) {stack : Stack}
    (hstack : Confined p P stack) (h : R s s') :
    R (run p m none origin stack s).1 (run p m none origin stack s').1 ∧
      (run p m none origin stack s').2 = (run p m none origin stack s).2 ∧
      ∀ wake rest, (run p m none origin stack s).2 = some (wake, rest) → Confined p P rest := by
  induction hweight : p.weight stack using Nat.strongRecOn generalizing stack s s' with
  | ind weight ih =>
    subst hweight
    have hstep : (advance p m none origin stack s).Agrees p P R
        (advance p m none origin stack s') :=
      advance_agrees hR hstack h
    generalize hfirst : advance p m none origin stack s = first at hstep
    generalize hsecond : advance p m none origin stack s' = second at hstep
    cases hstep with
    | finished hend =>
      rw [run_of_finished hfirst, run_of_finished hsecond]
      exact ⟨hend, rfl, by simp⟩
    | suspended wake hrest hend =>
      rw [run_of_suspended hfirst, run_of_suspended hsecond]
      refine ⟨hend, rfl, fun wake' rest hsome => ?_⟩
      cases hsome
      exact hrest
    | running hrest hnext =>
      rw [run_of_running hfirst, run_of_running hsecond]
      exact ih _ (advance_weight hfirst) hrest hnext rfl

end

end BlockStudio.Script
