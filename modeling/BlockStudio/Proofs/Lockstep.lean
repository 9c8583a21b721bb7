import BlockStudio.Proofs.Unfolding
import BlockStudio.Proofs.Waiting

/-!
A session and one whose action lists are unfolded. Their agendas go on in lockstep, but for the
steps in which the unfolding waits, as long as no call is too deep. Main statement: every play of a
document keeps two engines in step.
-/
namespace BlockStudio

namespace Table
variable {α β : Type} {R : α → β → Prop} {t : Table α} {t' : Table β}

theorem related_place {es : List (String × α)} {es' : List (String × β)}
    (key : String) {x : α} {y : β} (h : List.Forall₂ (fun e e' => e.1 = e'.1 ∧ R e.2 e'.2) es es')
    (hxy : R x y) :
    List.Forall₂ (fun e e' => e.1 = e'.1 ∧ R e.2 e'.2) (place key x es) (place key y es') := by
  induction h with
  | nil => exact .cons ⟨rfl, hxy⟩ .nil
  | @cons e e' rest rest' he hrest ih =>
    simp only [place, ← he.1]
    split
    · exact .cons ⟨rfl, hxy⟩ (.cons he hrest)
    · split
      · exact .cons ⟨rfl, hxy⟩ hrest
      · exact .cons he ih

theorem related_insert (h : t.Related R t') (key : String) {x : α} {y : β} (hxy : R x y) :
    (t.insert key x).Related R (t'.insert key y) :=
  related_place key h hxy

theorem related_ofList {es : List (String × α)} {es' : List (String × β)}
    (h : List.Forall₂ (fun e e' => e.1 = e'.1 ∧ R e.2 e'.2) es es') :
    (ofList es).Related R (ofList es') := by
  have hfold : ∀ (t : Table α) (t' : Table β), t.Related R t' →
      (es.foldl (fun t e => t.insert e.1 e.2) t).Related R
        (es'.foldl (fun t e => t.insert e.1 e.2) t') := by
    induction h with
    | nil => exact fun _ _ ht => ht
    | cons he _ ih =>
      intro t t' ht
      rw [List.foldl_cons, List.foldl_cons, ← he.1]
      exact ih _ _ (related_insert ht _ he.2)
  exact hfold empty empty .nil

theorem related_mapValues {γ δ : Type} {S : γ → δ → Prop} (h : t.Related R t') {f : String → α → γ}
    {g : String → β → δ} (hfg : ∀ name x y, R x y → S (f name x) (g name y)) :
    (t.mapValues f).Related S (t'.mapValues g) := by
  simp only [Related, mapValues, List.forall₂_map_left_iff, List.forall₂_map_right_iff]
  refine h.imp ?_
  rintro ⟨name, x⟩ ⟨name', y⟩ ⟨rfl, hxy⟩
  exact ⟨rfl, hfg name x y hxy⟩

end Table

namespace Script

structure TaskUnfolds (p : Program) (t t' : Task) : Prop where
  id : t'.id = t.id
  origin : t'.origin = t.origin
  wake : t'.wake = t.wake
  stack : StackUnfolds p t.stack t'.stack

/-- Two runs of one task, or of two that begin alike. -/
inductive EntryMatches : Entry → Entry → Prop
  | resumed {t t' : Task} (hid : t'.id = t.id) (horigin : t'.origin = t.origin) :
    EntryMatches (.resumed t) (.resumed t')
  | launched (id : Nat) (origin : String) (actions actions' : List Action) :
    EntryMatches (.launched id origin actions) (.launched id origin actions')

/-- The outcomes of two runs: both finish, or both wait for the same. -/
inductive RestUnfolds (p : Program) : Option (Wake × Stack) → Option (Wake × Stack) → Prop
  | none : RestUnfolds p none none
  | some (wake : Wake) {stack stack' : Stack} (h : StackUnfolds p stack stack') :
    RestUnfolds p (some (wake, stack)) (some (wake, stack'))

structure BindingUnfolds (p : Program) (b b' : Binding) : Prop where
  lists : List.Forall₂ (Unfolds p) b.lists b'.lists
  active : b'.active = b.active

structure ScoreUnfolds (p : Program) (t t' : ScoreTrigger) : Prop where
  comparison : t'.comparison = t.comparison
  threshold : t'.threshold = t.threshold
  actions : Unfolds p t.actions t'.actions
  fired : t'.fired = t.fired

/-- Labelled lists of which the second unfold the first. -/
def LabelledUnfolds (p : Program) :
    List (String × List Action) → List (String × List Action) → Prop :=
  List.Forall₂ fun e e' => e.1 = e'.1 ∧ Unfolds p e.2 e'.2

inductive DutyUnfolds (p : Program) : Duty → Duty → Prop
  | run {entry entry' : Entry} {stack stack' : Stack} (hentry : EntryMatches entry entry')
    (hstack : StackUnfolds p stack stack') : DutyUnfolds p (.run entry stack) (.run entry' stack')
  | watch (name : String) {lists lists' : List (List Action)}
    (h : List.Forall₂ (Unfolds p) lists lists') :
    DutyUnfolds p (.watch name lists) (.watch name lists')
  | start (announced : Bool) {lists lists' : List (String × List Action)}
    (h : LabelledUnfolds p lists lists') :
    DutyUnfolds p (.start announced lists) (.start announced lists')
  | touch {t t' : Table Binding}
    (h : t.Related (BindingUnfolds p) t') : DutyUnfolds p (.touch t) (.touch t')
  | key {t t' : Table Binding}
    (h : t.Related (BindingUnfolds p) t') : DutyUnfolds p (.key t) (.key t')
  | look : DutyUnfolds p .look .look
  | resume {waiting waiting' : List Task} (h : List.Forall₂ (TaskUnfolds p) waiting waiting') :
    DutyUnfolds p (.resume waiting) (.resume waiting')

/-- Two states that differ in what remains of their waiting tasks only. -/
def StateUnfolds (p : Program) (s s' : State) : Prop :=
  ∃ pending, List.Forall₂ (TaskUnfolds p) s.pending pending ∧ s' = s.withTasks pending s.lastTaskId

inductive ProgressUnfolds (p : Program) : Progress → Progress → Prop
  | finished {s s' : State}
    (hstate : StateUnfolds p s s') : ProgressUnfolds p (.finished s) (.finished s')
  | suspended (wake : Wake) {stack stack' : Stack} {s s' : State}
    (hstack : StackUnfolds p stack stack') (hstate : StateUnfolds p s s') :
    ProgressUnfolds p (.suspended wake stack s) (.suspended wake stack' s')
  | running {stack stack' : Stack} {s s' : State} (hstack : StackUnfolds p stack stack')
    (hstate : StateUnfolds p s s') : ProgressUnfolds p (.running stack s) (.running stack' s')

structure AgendaUnfolds (p : Program) (a b : Agenda) : Prop where
  duties : List.Forall₂ (DutyUnfolds p) a.duties b.duties
  nesting : b.nesting = a.nesting
  kept : List.Forall₂ (TaskUnfolds p) a.kept b.kept
  state : StateUnfolds p a.state b.state

namespace Agenda

/-- Whether the next step is a call that is too deep. -/
def callsTooDeep (p : Program) (a : Agenda) : Bool :=
  match a.duties with
  | .run _ stack :: _ => Script.callsTooDeep p stack
  | _ => false

/-- In the whole of the work no call is too deep. -/
def StaysShallow (p : Program) (m : Moment) (a : Agenda) : Prop :=
  ∀ n, ((Agenda.next p m)^[n] a).callsTooDeep p = false

end Agenda

section
variable {p p' : Program} {m : Moment} {a b : Agenda}

theorem EntryMatches.origin_eq {entry entry' : Entry} (h : EntryMatches entry entry') :
    entry'.origin = entry.origin := by
  cases h with
  | resumed hid horigin => exact horigin
  | launched id origin actions actions' => rfl

namespace StateUnfolds
variable {s s' : State}

/-- A change that leaves the tasks alone keeps two states in step. -/
theorem map (h : StateUnfolds p s s') (f : State → State) (hpending : (f s).pending = s.pending)
    (hlast : (f s).lastTaskId = s.lastTaskId)
    (hf : ∀ pending lastTaskId, f (s.withTasks pending lastTaskId) =
      (f s).withTasks pending lastTaskId) :
    StateUnfolds p (f s) (f s') := by
  obtain ⟨pending, htasks, rfl⟩ := h
  refine ⟨pending, by rwa [hpending], ?_⟩
  rw [hf, hlast]

theorem world_eq (h : StateUnfolds p s s') : s'.world = s.world := by
  obtain ⟨pending, -, rfl⟩ := h
  rfl

theorem pending_forall₂ (h : StateUnfolds p s s') :
    List.Forall₂ (TaskUnfolds p) s.pending s'.pending := by
  obtain ⟨pending, htasks, rfl⟩ := h
  exact htasks

theorem store (h : StateUnfolds p s s') (name : String) (value : Float) :
    StateUnfolds p (s.store name value) (s'.store name value) :=
  h.map (·.store name value) (by simp) (by simp) fun pending lastTaskId =>
    s.store_withTasks pending lastTaskId name value

theorem emit (h : StateUnfolds p s s') (content : EventContent) :
    StateUnfolds p (s.emit content) (s'.emit content) :=
  h.map (·.emit content) (by simp) (by simp) fun _ _ => by simp only [State.emit, State.withTasks]

theorem keep (h : StateUnfolds p s s') (id : Nat) (origin : String)
    {rest rest' : Option (Wake × Stack)} (hrest : RestUnfolds p rest rest') :
    StateUnfolds p (s.keep id origin rest) (s'.keep id origin rest') := by
  obtain ⟨pending, htasks, rfl⟩ := h
  cases hrest with
  | none => exact ⟨pending, htasks, rfl⟩
  | @some wake stack stack' hstack =>
    have hnew : TaskUnfolds p ⟨id, origin, stack, wake⟩ ⟨id, origin, stack', wake⟩ :=
      ⟨rfl, rfl, rfl, hstack⟩
    exact ⟨_, List.rel_append htasks (.cons hnew .nil), rfl⟩

theorem takeTaskId (h : StateUnfolds p s s') :
    s'.takeTaskId.1 = s.takeTaskId.1 ∧ StateUnfolds p s.takeTaskId.2 s'.takeTaskId.2 := by
  obtain ⟨pending, htasks, rfl⟩ := h
  exact ⟨rfl, pending, htasks, rfl⟩

end StateUnfolds

/-- The order of the ids puts two lists of tasks in the same order. -/
theorem taskUnfolds_mergeSort {ts ts' : List Task} (h : List.Forall₂ (TaskUnfolds p) ts ts') :
    List.Forall₂ (TaskUnfolds p) (ts.mergeSort fun t u => t.id ≤ u.id)
      (ts'.mergeSort fun t u => t.id ≤ u.id) := by
  obtain ⟨hlength, hpairs⟩ := List.forall₂_iff_zip.1 h
  have hfirst : (ts.zip ts').map Prod.fst = ts := List.map_fst_zip (by omega)
  have hsecond : (ts.zip ts').map Prod.snd = ts' := List.map_snd_zip (by omega)
  have hsortFirst :=
    List.map_mergeSort (l := ts.zip ts') (f := Prod.fst) (r := fun t u => t.1.id ≤ u.1.id)
      (s := fun t u => t.id ≤ u.id) fun _ _ _ _ => rfl
  have hsortSecond :=
    List.map_mergeSort (l := ts.zip ts') (f := Prod.snd) (r := fun t u => t.1.id ≤ u.1.id)
      (s := fun t u => t.id ≤ u.id) fun t ht u hu => by rw [(hpairs ht).id, (hpairs hu).id]
  rw [hfirst] at hsortFirst
  rw [hsecond] at hsortSecond
  rw [← hsortFirst, ← hsortSecond, List.forall₂_map_left_iff, List.forall₂_map_right_iff,
    List.forall₂_same]
  intro t ht
  exact hpairs (List.mem_mergeSort.1 ht)

namespace AgendaUnfolds

theorem withState (h : AgendaUnfolds p a b) {s s' : State} (hs : StateUnfolds p s s') :
    AgendaUnfolds p { a with state := s } { b with state := s' } :=
  ⟨h.duties, h.nesting, h.kept, hs⟩

theorem leave (h : AgendaUnfolds p a b) {entry entry' : Entry} (hentry : EntryMatches entry entry')
    {rest rest' : Option (Wake × Stack)} (hrest : RestUnfolds p rest rest') :
    AgendaUnfolds p (a.leave entry rest) (b.leave entry' rest') := by
  cases hentry with
  | @resumed t t' hid horigin =>
    refine ⟨h.duties, h.nesting, List.rel_append h.kept ?_, h.state⟩
    cases hrest with
    | none => exact .nil
    | some wake hstack => exact .cons ⟨hid, horigin, rfl, hstack⟩ .nil
  | launched id origin actions actions' =>
    exact ⟨h.duties, h.nesting, h.kept, h.state.keep id origin hrest⟩

theorem launch (h : AgendaUnfolds p a b) (origin : String) {actions actions' : List Action}
    (hactions : Unfolds p actions actions') {duties duties' : List Duty}
    (hduties : List.Forall₂ (DutyUnfolds p) duties duties') :
    AgendaUnfolds p (a.launch origin actions duties) (b.launch origin actions' duties') := by
  obtain ⟨hid, hstate⟩ := h.state.takeTaskId
  have hentry : EntryMatches (.launched a.state.takeTaskId.1 origin actions)
      (.launched b.state.takeTaskId.1 origin actions') := by
    rw [hid]
    exact .launched _ origin actions actions'
  exact ⟨.cons (.run hentry (.sequence false hactions .nil)) hduties, h.nesting, h.kept, hstate⟩

end AgendaUnfolds

theorem risen_unfolds (label : String → String) (isActive : String → Bool) {t t' : Table Binding}
    (h : t.Related (BindingUnfolds p) t') :
    LabelledUnfolds p (risen label isActive t) (risen label isActive t') := by
  unfold Table.Related at h
  unfold risen
  generalize t.entries = es at h
  generalize t'.entries = es' at h
  induction h with
  | nil => exact .nil
  | @cons e e' _ _ he _ ih =>
    obtain ⟨name, b⟩ := e
    obtain ⟨name', b'⟩ := e'
    obtain ⟨rfl, hb⟩ : name = name' ∧ BindingUnfolds p b b' := he
    refine List.rel_append ?_ ih
    simp only [hb.active]
    split
    · rw [List.forall₂_map_left_iff, List.forall₂_map_right_iff]
      exact hb.lists.imp fun _ _ hactions => ⟨rfl, hactions⟩
    · exact .nil

/-- A step with an unfolded stack is a step that does the same, unless the unfolding waits. -/
theorem KeepsUp.progress {origin : String} {s : State} {stack stack' : Stack}
    (h : KeepsUp p p' m origin s stack stack' (advance p m none origin stack s)) {s' : State}
    (hs : StateUnfolds p s s') :
    (∃ stack₁, advance p m none origin stack s = .running stack₁ s ∧ StackUnfolds p stack₁ stack') ∨
      ((watchedWrite? p s stack = none → watchedWrite? p' s' stack' = none) ∧
        ProgressUnfolds p (advance p m none origin stack s)
          (advance p' m none origin stack' s')) := by
  obtain ⟨pending, htasks, rfl⟩ := hs
  obtain ⟨hpending, hlast⟩ := @advance_none_tasks p m origin stack s
  rw [advance_withTasks, watchedWrite?_withTasks]
  generalize advance p m none origin stack s = result at h hpending hlast
  cases h with
  | finished s₁ hadvance hunwatched =>
    rw [hadvance]
    exact .inr ⟨hunwatched, .finished ⟨pending, hpending ▸ htasks, hlast ▸ rfl⟩⟩
  | suspended wake s₁ hadvance hstack hunwatched =>
    rw [hadvance]
    exact .inr ⟨hunwatched, .suspended wake hstack ⟨pending, hpending ▸ htasks, hlast ▸ rfl⟩⟩
  | running s₁ hadvance hstack hunwatched =>
    rw [hadvance]
    exact .inr ⟨hunwatched, .running hstack ⟨pending, hpending ▸ htasks, hlast ▸ rfl⟩⟩
  | waiting hstack => exact .inl ⟨_, rfl, hstack⟩

namespace AgendaUnfolds

/-- A run that is unfolded goes on in lockstep, or waits for a step. -/
theorem goOn (hp : ProgramUnfolds p p') (h : AgendaUnfolds p a b) {entry entry' : Entry}
    {stack stack' : Stack} {duties duties' : List Duty} (hentry : EntryMatches entry entry')
    (hstack : StackUnfolds p stack stack') (hduties : List.Forall₂ (DutyUnfolds p) duties duties')
    (hb : b.duties = .run entry' stack' :: duties')
    (hshallow : Script.callsTooDeep p stack = false) :
    ∃ b', Reaches p' m b b' ∧ AgendaUnfolds p (a.goOn p m entry stack duties) b' := by
  obtain ⟨-, hnesting, hkept, hstate⟩ := h
  simp only [Agenda.goOn]
  cases hw : (if a.nesting < p.limits.maxCallDepth then watchedWrite? p a.state stack else none)
    with
  | some w =>
    obtain ⟨hdeep, hwatched⟩ : a.nesting < p.limits.maxCallDepth ∧
        watchedWrite? p a.state stack = some w := by
      split at hw
      · exact ⟨‹_›, hw⟩
      · contradiction
    obtain ⟨lists', stack₁', hwatched', hlists, hstack₁⟩ := watchedWrite?_unfolds hp hstack hwatched
    refine ⟨_, .head (.refl _), ?_⟩
    have hnext : b.next p' m = { b with
        duties := .watch w.name lists' :: .run entry' stack₁' :: duties'
        nesting := b.nesting + 1
        state := b.state.store w.name w.value } := by
      obtain ⟨pending, -, hb'⟩ := hstate
      rw [← hnesting, ← hp.limits] at hdeep
      simp only [Agenda.next, hb, Agenda.goOn, if_pos hdeep, hb',
        watchedWrite?_withTasks, hwatched']
    rw [hnext]
    exact ⟨.cons (.watch _ hlists) (.cons (.run hentry hstack₁) hduties),
      congrArg (· + 1) hnesting, hkept, hstate.store _ _⟩
  | none =>
    have hkeeps : KeepsUp p p' m entry.origin a.state stack stack'
        (advance p m none entry.origin stack a.state) :=
      keepsUp hp a.state hstack hshallow
    rcases hkeeps.progress hstate with ⟨stack₁, hadvance, hstack₁⟩ | ⟨hunwatched, hprogress⟩
    · rw [hadvance]
      refine ⟨b, .refl b, ?_, hnesting, hkept, hstate⟩
      rw [hb]
      exact .cons (.run hentry hstack₁) hduties
    · have hw' : (if b.nesting < p'.limits.maxCallDepth then
          watchedWrite? p' b.state stack' else none) = none := by
        rw [hnesting, hp.limits]
        split
        · rename_i hdeep
          rw [if_pos hdeep] at hw
          exact hunwatched hw
        · rfl
      refine ⟨_, .head (.refl _), ?_⟩
      simp only [Agenda.next, hb, Agenda.goOn, hw', hentry.origin_eq]
      generalize advance p m none entry.origin stack a.state = result at hprogress
      generalize advance p' m none entry.origin stack' b.state = result' at hprogress
      cases hprogress with
      | finished hs =>
        have hover : AgendaUnfolds p { a with duties, state := _ }
            { b with duties := duties', state := _ } :=
          ⟨hduties, hnesting, hkept, hs⟩
        exact hover.leave hentry .none
      | suspended wake hstack hs =>
        have hover : AgendaUnfolds p { a with duties, state := _ }
            { b with duties := duties', state := _ } :=
          ⟨hduties, hnesting, hkept, hs⟩
        exact hover.leave hentry (.some wake hstack)
      | running hstack hs => exact ⟨.cons (.run hentry hstack) hduties, hnesting, hkept, hs⟩

/-- An agenda that is unfolded goes on in lockstep, or waits for a step. -/
theorem next (hp : ProgramUnfolds p p') (h : AgendaUnfolds p a b)
    (hshallow : a.callsTooDeep p = false) :
    ∃ b', Reaches p' m b b' ∧ AgendaUnfolds p (a.next p m) b' := by
  obtain ⟨duties, nesting, kept, ran, s⟩ := a
  have hduties := h.duties
  generalize hb : b.duties = duties' at hduties
  have hstep : AgendaUnfolds p (Agenda.next p m ⟨duties, nesting, kept, ran, s⟩) (b.next p' m) →
      ∃ b', Reaches p' m b b' ∧
        AgendaUnfolds p (Agenda.next p m ⟨duties, nesting, kept, ran, s⟩) b' :=
    fun hnext => ⟨b.next p' m, .head (.refl _), hnext⟩
  cases hduties with
  | nil => exact ⟨b, .refl b, h⟩
  | cons hduty hduties =>
    cases hduty with
    | run hentry hstack => exact h.goOn hp hentry hstack hduties hb hshallow
    | watch name hlists =>
      apply hstep
      cases hlists with
      | nil =>
        simp only [Agenda.next, hb]
        exact ⟨hduties, congrArg (· - 1) h.nesting, h.kept, h.state⟩
      | cons hactions hlists =>
        simp only [Agenda.next, hb]
        exact h.launch _ hactions (.cons (.watch name hlists) hduties)
    | start announced hlists =>
      apply hstep
      cases hlists with
      | nil =>
        simp only [Agenda.next, hb]
        exact ⟨hduties, h.nesting, h.kept, h.state⟩
      | @cons e e' _ _ he hlists =>
        obtain ⟨origin, actions⟩ := e
        obtain ⟨origin', actions'⟩ := e'
        obtain ⟨rfl, hactions⟩ : origin = origin' ∧ Unfolds p actions actions' := he
        simp only [Agenda.next, hb]
        have hstate : StateUnfolds p (if announced then s.emit (.triggerFired origin) else s)
            (if announced then b.state.emit (.triggerFired origin) else b.state) := by
          cases announced with
          | false => exact h.state
          | true => exact h.state.emit _
        exact (h.withState hstate).launch origin hactions (.cons (.start announced hlists) hduties)
    | touch ht =>
      apply hstep
      simp only [Agenda.next, hb, h.state.world_eq]
      exact ⟨.cons (.start true (risen_unfolds _ _ ht)) hduties, h.nesting, h.kept, h.state⟩
    | key ht =>
      apply hstep
      simp only [Agenda.next, hb, h.state.world_eq]
      exact ⟨.cons (.start true (risen_unfolds _ _ ht)) hduties, h.nesting, h.kept, h.state⟩
    | look =>
      apply hstep
      simp only [Agenda.next, hb]
      obtain ⟨pending, htasks, hstate⟩ := h.state
      refine ⟨.cons (.resume h.state.pending_forall₂) hduties, h.nesting, h.kept, [], .nil, ?_⟩
      simp only [hstate, State.withTasks]
    | resume hwaiting =>
      apply hstep
      cases hwaiting with
      | nil =>
        simp only [Agenda.next, hb]
        have htasks := taskUnfolds_mergeSort (List.rel_append h.kept h.state.pending_forall₂)
        obtain ⟨pending, -, hstate⟩ := h.state
        refine ⟨hduties, h.nesting, .nil, _, htasks, ?_⟩
        rw [hstate]
        rfl
      | @cons t t' _ _ ht hwaiting =>
        simp only [Agenda.next, hb, ht.wake]
        split
        · have hentry : EntryMatches (.resumed t) (.resumed t') := .resumed ht.id ht.origin
          exact ⟨.cons (.run hentry ht.stack) (.cons (.resume hwaiting) hduties),
            h.nesting, h.kept, h.state⟩
        · exact ⟨.cons (.resume hwaiting) hduties, h.nesting,
            List.rel_append h.kept (.cons ht .nil), h.state⟩

end AgendaUnfolds

/-- Where in the whole of the work no call is too deep, the unfolded work comes to an end in
step. -/
theorem Reaches.unfolds (hp : ProgramUnfolds p p') {c c' : Agenda} (h : Reaches p m a c)
    (hc : c.duties = []) (h' : Reaches p' m b c') (hc' : c'.duties = []) (hab : AgendaUnfolds p a b)
    (hshallow : a.StaysShallow p m) :
    StateUnfolds p c.state c'.state := by
  let R (a b : Agenda) : Prop := AgendaUnfolds p a b ∧ a.StaysShallow p m
  have hstep : ∀ a b, R a b → ∃ b', Reaches p' m b b' ∧ R (a.next p m) b' := by
    rintro a b ⟨hab, hshallow⟩
    obtain ⟨b', hreach, hnext⟩ := hab.next (m := m) hp (hshallow 0)
    refine ⟨b', hreach, hnext, ?_⟩
    intro n
    rw [← Function.iterate_succ_apply]
    exact hshallow (n + 1)
  obtain ⟨d, hreach, hcd, -⟩ := Reaches.simulate hstep h ⟨hab, hshallow⟩
  have hd : d.duties = [] := by
    have hduties := hcd.duties
    rw [hc] at hduties
    exact List.forall₂_nil_left_iff.1 hduties
  rw [h'.unique hc' hreach hd]
  exact hcd.state

/-- The agenda with duties that come after all of its own. -/
def Agenda.before (a : Agenda) (later : List Duty) : Agenda :=
  { a with duties := a.duties ++ later }

theorem Agenda.leave_before (a : Agenda) (entry : Entry) (rest : Option (Wake × Stack))
    (later : List Duty) :
    (a.before later).leave entry rest = (a.leave entry rest).before later := by
  cases entry <;> rfl

theorem Agenda.goOn_before (a : Agenda) (entry : Entry) (stack : Stack) (duties later : List Duty) :
    (a.before later).goOn p m entry stack (duties ++ later) =
      (a.goOn p m entry stack duties).before later := by
  unfold goOn
  rw [show (a.before later).nesting = a.nesting from rfl,
    show (a.before later).state = a.state from rfl]
  split
  · rfl
  · cases advance p m none entry.origin stack a.state with
    | running stack s => rfl
    | suspended wake stack s => exact leave_before { a with duties, state := s } entry _ later
    | finished s => exact leave_before { a with duties, state := s } entry _ later

/-- A step does not look at the duties that come later. -/
theorem Agenda.next_before (h : a.duties ≠ []) (later : List Duty) :
    (a.before later).next p m = (a.next p m).before later := by
  obtain ⟨duties, nesting, kept, ran, s⟩ := a
  cases duties with
  | nil => contradiction
  | cons duty duties =>
    cases duty with
    | run entry stack => exact goOn_before _ entry stack duties later
    | watch name lists => cases lists <;> rfl
    | start announced lists => cases lists <;> rfl
    | resume waiting =>
      cases waiting with
      | nil => rfl
      | cons t waiting =>
        simp only [before, List.cons_append, next]
        split <;> rfl
    | _ => rfl

namespace Agenda.StaysShallow

theorem onward (h : a.StaysShallow p m) (hreach : Reaches p m a b) : b.StaysShallow p m := by
  obtain ⟨k, rfl⟩ := hreach
  intro n
  rw [← Function.iterate_add_apply]
  exact h (n + k)

theorem of_before {later : List Duty} (h : (a.before later).StaysShallow p m) :
    a.StaysShallow p m := by
  intro n
  induction n generalizing a with
  | zero =>
    have hfirst := h 0
    cases hduties : a.duties with
    | nil => simp only [Function.iterate_zero, id, callsTooDeep, hduties]
    | cons duty duties =>
      simp only [Function.iterate_zero, id, callsTooDeep, before, hduties,
        List.cons_append] at hfirst ⊢
      cases duty <;> exact hfirst
  | succ n ih =>
    by_cases hduties : a.duties = []
    · simp [iterate_next_of_done hduties, callsTooDeep, hduties]
    · rw [Function.iterate_succ_apply]
      apply ih
      rw [← next_before hduties]
      exact h.onward ⟨1, rfl⟩

end Agenda.StaysShallow

end

end Script

end BlockStudio
