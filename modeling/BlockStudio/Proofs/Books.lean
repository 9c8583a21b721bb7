import BlockStudio.Proofs.Agenda
import Mathlib.Algebra.Order.Group.Multiset
import Mathlib.Data.Multiset.Filter

/-!
The books of an agenda: which runs are going on, which waiting tasks are still to be looked at,
which tasks are stored and which runs are over. A step makes at most one posting, of one of five
kinds, so what holds of every posting holds of all work: no task is lost or doubled, and ids are
handed out once as long as their counter has not run out.
-/
namespace BlockStudio.Script

def Progress.state : Progress → State
  | .finished s => s
  | .suspended _ _ s => s
  | .running _ s => s

section
variable {p : Program} {m : Moment} {origin : String}

@[simp] theorem State.pending_store (s : State) (name : String) (value : Float) :
    (s.store name value).pending = s.pending := by
  simp only [State.store]
  split <;> rfl

@[simp] theorem State.lastTaskId_store (s : State) (name : String) (value : Float) :
    (s.store name value).lastTaskId = s.lastTaskId := by
  simp only [State.store]
  split <;> rfl

@[simp] theorem State.pending_emit (s : State) (content : EventContent) :
    (s.emit content).pending = s.pending := by
  simp only [State.emit]

/-- Without watchers an effect leaves the tasks alone. -/
theorem perform_none_tasks (e : Effect) (s : State) :
    (perform p m none origin e s).pending = s.pending ∧
    (perform p m none origin e s).lastTaskId = s.lastTaskId := by
  have hwrite : ∀ name value, (write p m none origin name value s).pending = s.pending ∧
      (write p m none origin name value s).lastTaskId = s.lastTaskId := by
    intro name value
    simp only [write]
    split <;> simp [State.fault]
  cases e with
  | setVariable name value =>
    simp only [perform]
    split
    · exact ⟨rfl, rfl⟩
    · exact hwrite name value
  | changeVariable name delta =>
    simp only [perform]
    split
    · exact ⟨rfl, rfl⟩
    · exact hwrite name _
  | setColor id color =>
    simp only [perform]
    split
    · split <;> exact ⟨rfl, rfl⟩
    · exact ⟨rfl, rfl⟩
  | _ => exact ⟨rfl, rfl⟩

theorem act_none_tasks (a : Action) (here : Stack) (s : State) :
    (act p m none origin a here s).state.pending = s.pending ∧
      (act p m none origin a here s).state.lastTaskId = s.lastTaskId := by
  cases a with
  | effect e => exact perform_none_tasks e s
  | call name =>
    simp only [act]
    split
    · exact ⟨rfl, rfl⟩
    · split <;> exact ⟨rfl, rfl⟩
  | _ => exact ⟨rfl, rfl⟩

theorem advance_none_tasks (stack : Stack) (s : State) :
    (advance p m none origin stack s).state.pending = s.pending ∧
      (advance p m none origin stack s).state.lastTaskId = s.lastTaskId := by
  unfold advance
  split
  · exact ⟨rfl, rfl⟩
  · exact ⟨rfl, rfl⟩
  · exact act_none_tasks _ _ s
  · split
    · exact ⟨rfl, rfl⟩
    · split <;> exact ⟨rfl, rfl⟩
  · split
    · exact ⟨rfl, rfl⟩
    · split <;> exact ⟨rfl, rfl⟩

theorem stack_ne_nil_of_suspended {cascade : Cascade} {stack rest : Stack}
    {wake : Wake} {s s' : State}
    (h : advance p m cascade origin stack s = .suspended wake rest s') : rest ≠ [] := by
  unfold advance at h
  split at h
  · cases h
  · cases h
  · rename_i a _ _ _
    cases a with
    | wait seconds =>
      cases h
      simp
    | call name =>
      simp only [act] at h
      split at h
      · cases h
      · split at h <;> cases h
    | _ => cases h
  · split at h
    · cases h
    · split at h <;> cases h
      simp
  · split at h
    · cases h
    · split at h <;> cases h
      simp

end

@[ext] structure Books where
  /-- The runs that are going on, one inside the other. -/
  running : Multiset Entry
  /-- The waiting tasks that are still to be looked at. -/
  waiting : Multiset Task
  /-- The waiting tasks that are not looked at, or not any more. -/
  stored : Multiset Task
  ran : Multiset Ran
  lastTaskId : Nat

def Duty.entry? : Duty → Option Entry
  | .run entry _ => some entry
  | _ => none

def Duty.waiting : Duty → List Task
  | .resume waiting => waiting
  | _ => []

def Agenda.books (a : Agenda) : Books where
  running := ↑(a.duties.filterMap Duty.entry?)
  waiting := ↑(a.duties.flatMap Duty.waiting)
  stored := ↑(a.kept ++ a.state.pending)
  ran := ↑a.ran
  lastTaskId := a.state.lastTaskId

/-- How a step may change the books. -/
inductive Posting (m : Moment) (b : Books) : Books → Prop
  | none : Posting m b b
  | launch (origin : String) (actions : List Action) :
    Posting m b
      { b with
        running := .launched (Number.countUp b.lastTaskId 1) origin actions ::ₘ b.running
        lastTaskId := Number.countUp b.lastTaskId 1 }
  | resume (t : Task) (others : Multiset Task) (hwaiting : b.waiting = t ::ₘ others)
    (hdue : t.wake.isDue m = true) :
    Posting m b { b with running := .resumed t ::ₘ b.running, waiting := others }
  | keep (t : Task) (others : Multiset Task) (hwaiting : b.waiting = t ::ₘ others)
    (hdue : ¬t.wake.isDue m = true) :
    Posting m b { b with waiting := others, stored := t ::ₘ b.stored }
  | leave (entry : Entry) (others : Multiset Entry) (rest : Option (Wake × Stack))
    (hrunning : b.running = entry ::ₘ others)
      (hrest : ∀ wake stack, rest = some (wake, stack) → stack ≠ []) :
    Posting m b
      { b with
        running := others
        stored := ↑(Ran.mk entry rest).waiting?.toList + b.stored
        ran := ⟨entry, rest⟩ ::ₘ b.ran }

theorem coe_append_singleton {α : Type} (l : List α) (x : α) :
    (↑(l ++ [x]) : Multiset α) = x ::ₘ ↑l :=
  Multiset.coe_eq_coe.2 (List.perm_append_singleton x l)

namespace Agenda

/-- The books see nothing of a state but its tasks. -/
theorem books_congr (a : Agenda) {s : State} (hpending : s.pending = a.state.pending)
    (hlast : s.lastTaskId = a.state.lastTaskId) :
    ({ a with state := s } : Agenda).books = a.books := by
  simp [books, hpending, hlast]

theorem books_leave (a : Agenda) (entry : Entry) (rest : Option (Wake × Stack)) :
    (a.leave entry rest).books =
      { a.books with
        stored := ↑(Ran.mk entry rest).waiting?.toList + a.books.stored
        ran := ⟨entry, rest⟩ ::ₘ a.books.ran } := by
  cases entry with
  | resumed t =>
    simp only [books, leave, coe_append_singleton]
    simp only [← Multiset.coe_add, add_left_comm, add_assoc]
  | launched id origin actions =>
    cases rest with
    | none => simp [books, leave, State.keep, Ran.waiting?, coe_append_singleton]
    | some rest =>
      obtain ⟨wake, stack⟩ := rest
      simp only [books, leave, State.keep, Ran.waiting?, coe_append_singleton, ← List.append_assoc]
      rfl

theorem posting_leave (m : Moment) {a : Agenda} {entry : Entry} {stack : Stack} {duties : List Duty}
    (ha : a.duties = .run entry stack :: duties) {s : State}
    (hs : s.pending = a.state.pending ∧ s.lastTaskId = a.state.lastTaskId)
    (rest : Option (Wake × Stack)) (hrest : ∀ wake stack, rest = some (wake, stack) → stack ≠ []) :
    Posting m a.books (({ a with duties, state := s } : Agenda).leave entry rest).books := by
  have hrunning : a.books.running = entry ::ₘ ↑(duties.filterMap Duty.entry?) := by
    simp [books, ha, Duty.entry?]
  have hbooks := Posting.leave (m := m) entry _ rest hrunning hrest
  rw [books_leave]
  simpa [books, ha, hs, Duty.waiting] using hbooks

theorem posting_launch (m : Moment) {a : Agenda} (origin : String) (actions : List Action)
    {duties : List Duty} (hrunning : duties.filterMap Duty.entry? = a.duties.filterMap Duty.entry?)
    (hwaiting : duties.flatMap Duty.waiting = a.duties.flatMap Duty.waiting) :
    Posting m a.books (a.launch origin actions duties).books := by
  have hbooks := Posting.launch (m := m) (b := a.books) origin actions
  simpa [books, Agenda.launch, State.takeTaskId, Duty.entry?, Duty.waiting, hrunning, hwaiting]
    using hbooks

/-- A round of a run either goes on, which changes nothing in the books, or ends the run. -/
theorem posting_goOn (p : Program) (m : Moment) {a : Agenda} {entry : Entry} {stack : Stack}
    {duties : List Duty} (ha : a.duties = .run entry stack :: duties) :
    Posting m a.books (a.goOn p m entry stack duties).books := by
  have htasks := @advance_none_tasks p m entry.origin stack a.state
  rcases a.goOn_cases p m entry stack duties with ⟨w, -, hgoOn⟩ | hgoOn <;> rw [hgoOn]
  · have hbooks : ({ a with
        duties := .watch w.name w.lists :: .run entry w.stack :: duties
        nesting := a.nesting + 1
        state := a.state.store w.name w.value } : Agenda).books = a.books := by
      simp [books, ha, List.filterMap_cons, Duty.entry?, Duty.waiting]
    rw [hbooks]
    exact .none
  · cases hresult : advance p m none entry.origin stack a.state with
    | running stack' s =>
      rw [hresult] at htasks
      have hbooks : ({ a with duties := .run entry stack' :: duties, state := s } : Agenda).books =
          a.books := by
        obtain ⟨hpending, hlast⟩ : s.pending = a.state.pending ∧
            s.lastTaskId = a.state.lastTaskId := htasks
        simp [books, ha, Duty.entry?, Duty.waiting, hpending, hlast]
      simp only [hbooks]
      exact .none
    | suspended wake stack' s =>
      rw [hresult] at htasks
      apply posting_leave m ha htasks
      rintro wake stack heq
      cases heq
      exact stack_ne_nil_of_suspended hresult
    | finished s =>
      rw [hresult] at htasks
      exact posting_leave m ha htasks none (by simp)

/-- A waiting task that is looked at goes on if it is due, and is put back if it is not. -/
theorem posting_resume (p : Program) (m : Moment) (a : Agenda) (t : Task) (waiting : List Task)
    {duties : List Duty} (ha : a.duties = .resume (t :: waiting) :: duties) :
    Posting m a.books (a.next p m).books := by
  obtain ⟨_, nesting, kept, ran, s⟩ := a
  subst ha
  have hwaiting : (books ⟨.resume (t :: waiting) :: duties, nesting, kept, ran, s⟩).waiting =
      t ::ₘ ↑(waiting ++ duties.flatMap Duty.waiting) := by
    simp [books, Duty.waiting]
  by_cases hdue : t.wake.isDue m = true
  · have hbooks := Posting.resume (m := m) t _ hwaiting hdue
    simp only [next, if_pos hdue]
    simpa [books, List.filterMap_cons, Duty.entry?, Duty.waiting] using hbooks
  · have hbooks := Posting.keep (m := m) t _ hwaiting hdue
    simp only [next, if_neg hdue]
    have hstored : (↑(kept ++ t :: s.pending) : Multiset Task) = ↑(t :: (kept ++ s.pending)) :=
      Multiset.coe_eq_coe.2 List.perm_middle
    simpa [books, List.filterMap_cons, Duty.entry?, Duty.waiting, hstored] using hbooks

theorem posting_next (p : Program) (m : Moment) (a : Agenda) (h : a.duties.head? ≠ some .look) :
    Posting m a.books (a.next p m).books := by
  obtain ⟨duties, nesting, kept, ran, s⟩ := a
  cases duties with
  | nil => exact .none
  | cons duty duties =>
    cases duty with
    | run entry stack => exact posting_goOn p m rfl
    | watch name lists =>
      cases lists with
      | nil => exact .none
      | cons actions lists => exact posting_launch m _ actions rfl rfl
    | start announced lists =>
      cases lists with
      | nil => exact .none
      | cons e lists =>
        obtain ⟨origin, actions⟩ := e
        have hpending : (if announced then s.emit (.triggerFired origin) else s).pending =
            s.pending := by
          split <;> simp
        have hlast : (if announced then s.emit (.triggerFired origin) else s).lastTaskId =
            s.lastTaskId := by
          split <;> simp
        rw [← books_congr ⟨_, nesting, kept, ran, s⟩ hpending hlast]
        exact posting_launch m origin actions rfl rfl
    | touch t => exact .none
    | key t => exact .none
    | look => simp at h
    | resume waiting =>
      cases waiting with
      | nil =>
        have hbooks : (next p m ⟨.resume [] :: duties, nesting, kept, ran, s⟩).books =
            books ⟨.resume [] :: duties, nesting, kept, ran, s⟩ := by
          simp only [books, next, List.nil_append]
          congr 1
          exact Multiset.coe_eq_coe.2 (List.mergeSort_perm _ _)
        rw [hbooks]
        exact .none
      | cons t waiting => exact posting_resume p m ⟨_, nesting, kept, ran, s⟩ t waiting rfl

end Agenda

/-- What postings keep, work without a look keeps. -/
theorem Reaches.books {p : Program} {m : Moment} {I : Books → Prop}
    (hposting : ∀ b b', Posting m b b' → I b → I b') {a c : Agenda} (h : Reaches p m a c)
    (hlook : .look ∉ a.duties) (ha : I a.books) : I c.books := by
  obtain ⟨n, rfl⟩ := h
  induction n generalizing a with
  | zero => exact ha
  | succ n ih =>
    rw [Function.iterate_succ_apply]
    have hfirst : a.duties.head? ≠ some .look := fun hfirst => hlook (List.mem_of_head? hfirst)
    exact ih (a.look_notMem_next p m hlook) (hposting _ _ (a.posting_next p m hfirst) ha)

namespace Books

def ids (b : Books) : Multiset Nat :=
  b.running.map Entry.id + b.waiting.map Task.id + b.stored.map Task.id

/-- Tasks that wait have something left to do, and unless the counter of ids has run out no id is in
use twice. -/
structure Sound (b : Books) : Prop where
  bounded : b.lastTaskId ≤ Number.counterMax
  distinct : b.lastTaskId < Number.counterMax → b.ids.Nodup
  given : ∀ i ∈ b.ids, i ≤ b.lastTaskId
  unfinished : ∀ t ∈ b.waiting + b.stored, t.stack ≠ []

namespace Sound
variable {b c : Books}

/-- Tasks may go and stay sound; those that are new need something left to do. -/
theorem of_le (hb : b.Sound) (hlast : b.lastTaskId = c.lastTaskId) (hids : c.ids ≤ b.ids)
    (htasks : ∀ t ∈ c.waiting + c.stored, t ∈ b.waiting + b.stored ∨ t.stack ≠ []) : c.Sound := by
  refine ⟨hlast ▸ hb.bounded, fun hlt => ?_, fun i hi => ?_, fun t ht => ?_⟩
  · exact Multiset.nodup_of_le hids (hb.distinct (hlast ▸ hlt))
  · exact hlast ▸ hb.given i (Multiset.mem_of_le hids hi)
  · exact (htasks t ht).elim (hb.unfinished t) id

theorem congr (hb : b.Sound) (hlast : b.lastTaskId = c.lastTaskId) (hids : b.ids = c.ids)
    (htasks : b.waiting + b.stored = c.waiting + c.stored) : c.Sound :=
  hb.of_le hlast hids.ge fun _ ht => .inl (htasks ▸ ht)

end Sound

end Books

/-- A posting keeps the books sound: every id in use was given before, so a new one is greater. -/
theorem Posting.sound {m : Moment} {b b' : Books} (h : Posting m b b') (hb : b.Sound) :
    b'.Sound := by
  cases h with
  | none => exact hb
  | launch origin actions =>
    have hle : b.lastTaskId ≤ Number.countUp b.lastTaskId 1 := Number.le_countUp 1 hb.bounded
    refine ⟨Number.countUp_le_max _ _, ?_, ?_, hb.unfinished⟩
    · intro hlt
      have hnew : Number.countUp b.lastTaskId 1 = b.lastTaskId + 1 := Number.countUp_of_lt hlt
      have hids := hb.distinct (Nat.lt_of_le_of_lt hle hlt)
      simp only [Books.ids, Multiset.map_cons, Multiset.cons_add, Multiset.nodup_cons,
        Entry.id] at hids ⊢
      refine ⟨?_, hids⟩
      intro hmem
      have := hb.given _ hmem
      omega
    · intro i hi
      simp only [Books.ids, Multiset.map_cons, Multiset.cons_add, Multiset.mem_cons, Entry.id] at hi
      rcases hi with rfl | hi
      · exact Nat.le_refl _
      · exact Nat.le_trans (hb.given i hi) hle
  | resume t others hwaiting hdue =>
    refine hb.of_le rfl (by simp [Books.ids, hwaiting, Entry.id]) fun u hu => .inl ?_
    rw [hwaiting]
    simp only [Multiset.mem_add, Multiset.mem_cons] at hu ⊢
    exact hu.imp_left Or.inr
  | keep t others hwaiting hdue =>
    refine hb.of_le rfl (by simp [Books.ids, hwaiting]) fun u hu => .inl ?_
    rw [hwaiting]
    simp only [Multiset.mem_add, Multiset.mem_cons] at hu ⊢
    tauto
  | leave entry others rest hrunning hrest =>
    refine hb.of_le rfl ?_ fun u hu => ?_
    · cases rest with
      | none => simp [Books.ids, hrunning, Ran.waiting?, Multiset.le_cons_self]
      | some rest => simp [Books.ids, hrunning, Ran.waiting?]
    · rw [add_left_comm, Multiset.mem_add, Multiset.mem_coe, Option.mem_toList] at hu
      rcases hu with hu | hu
      · obtain ⟨⟨wake, stack⟩, hmem, rfl⟩ := Option.map_eq_some_iff.1 hu
        exact .inr (hrest wake stack hmem)
      · exact .inl hu

end BlockStudio.Script
