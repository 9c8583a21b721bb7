import BlockStudio.Proofs.Announcements
import BlockStudio.Proofs.CleanStart

/-!
The order in which waiting tasks go on. A pass takes the due tasks in the order of the list, and a
task joins the list when it is suspended, so the watchers that a run starts stand in front of the
run that started them. Main statement: of two tasks that go on in a frame the one that was started
first comes first, unless the other one ran inside of it.
-/
namespace BlockStudio.Script

namespace Agenda

/-- The ids of the tasks that run, the innermost first. -/
def runningIds (a : Agenda) : List Nat := (a.duties.filterMap Duty.entry?).map Entry.id

/-- The waiting task that the next step goes on with. -/
def resumed? (m : Moment) (a : Agenda) : Option Task :=
  match a.duties.head? with
  | some (.resume (t :: _)) => if t.wake.isDue m then some t else none
  | _ => none

end Agenda

/-- The waiting tasks that the work of a frame goes on with, in order. -/
def Record.resumptions (r : Record) : List Task := r.agendas.filterMap (·.resumed? r.moment)

/-- At one of some agendas a run of a task goes on inside of a run of another one. -/
def RunsInside (as : List Agenda) (inner outer : Nat) : Prop :=
  ∃ a ∈ as, [inner, outer].Sublist a.runningIds

/-- A task that waits may stand before another one: its id is smaller, or it ran inside of the
other. -/
def Precedes (as : List Agenda) (first second : Nat) : Prop :=
  first < second ∨ RunsInside as first second

section
variable {p : Program} {m : Moment} {a c : Agenda} {as : List Agenda}

/-! ### The due tasks go on in the order of the list -/

/-- A step that does not begin a pass goes on with the first task that is to be looked at, if it is
due. -/
theorem Agenda.resumed?_append (h : a.duties.head? ≠ some .look) :
    (a.resumed? m).toList ++ ((a.next p m).duties.flatMap Duty.waiting).filter (·.wake.isDue m) =
      (a.duties.flatMap Duty.waiting).filter (·.wake.isDue m) := by
  cases hduties : a.duties with
  | nil => simp [next_of_done hduties, hduties, resumed?]
  | cons duty duties =>
    obtain ⟨new, hnew, hnext⟩ := a.exists_becomes p m hduties
    rw [hnext]
    cases hnew with
    | look => simp [hduties] at h
    | due waiting hdue => simp [resumed?, hduties, Duty.waiting, hdue]
    | notDue waiting hdue => simp [resumed?, hduties, Duty.waiting, hdue]
    | _ => simp [resumed?, hduties, Duty.waiting]

theorem Course.resumptions_eq (h : Course p m a as c) (hlook : .look ∉ a.duties) :
    as.filterMap (·.resumed? m) = (a.duties.flatMap Duty.waiting).filter (·.wake.isDue m) := by
  induction h with
  | done ha => simp [ha]
  | @next a c as ha _ ih =>
    have hfirst : a.duties.head? ≠ some .look := fun hfirst => hlook (List.mem_of_head? hfirst)
    rw [← Agenda.resumed?_append (p := p) hfirst, ← ih (a.look_notMem_next p m hlook),
      List.filterMap_cons]
    cases a.resumed? m <;> rfl

/-- The work of a frame comes to look at the waiting tasks, and goes on with the due ones in the
order of the list. -/
theorem Course.exists_look {s : Session} {dt : Float} {st : State} {as : List Agenda} {c : Agenda}
    (h : Course s.program (s.moment.after (frameTime dt)) (Agenda.ofAdvance s dt st) as c) :
    (∃ ran, ⟨[.look], 0, [], ran, s.beforeLook dt st⟩ ∈ as) ∧
      as.filterMap (·.resumed? (s.moment.after (frameTime dt))) =
        (s.beforeLook dt st).pending.filter (·.wake.isDue (s.moment.after (frameTime dt))) := by
  obtain ⟨ran, hreach⟩ := reaches_beforeLook s dt st []
  obtain ⟨bs, rest, rfl, hbs, hrest⟩ :=
    Course.split (a := Agenda.ofTriggers s dt st []) [.look] h hreach rfl
  cases hrest with
  | done hdone => contradiction
  | @next _ _ rest _ hpass =>
    refine ⟨⟨ran, by simp [Agenda.before]⟩, ?_⟩
    have hbefore : (bs.map (·.before [.look])).filterMap
        (·.resumed? (s.moment.after (frameTime dt))) =
        bs.filterMap (·.resumed? (s.moment.after (frameTime dt))) := by
      rw [List.filterMap_map]
      refine List.filterMap_congr fun b hb => ?_
      simp only [Function.comp_apply, Agenda.resumed?, Agenda.head?_before (hbs.duties_ne_nil b hb)]
    have htriggers : bs.filterMap (·.resumed? (s.moment.after (frameTime dt))) = [] :=
      hbs.resumptions_eq (by simp [Agenda.ofTriggers])
    have hresumed := hpass.resumptions_eq (by simp [Agenda.next, Agenda.before])
    rw [List.filterMap_append, hbefore, htriggers, List.nil_append, List.filterMap_cons_none rfl]
    simpa [Agenda.next, Agenda.before, Duty.waiting] using hresumed

/-! ### What a step does to the order of the tasks -/

/-- Whether the duty is a run, or belongs to the run behind it. -/
def Duty.isNested : Duty → Bool
  | .run .. => true
  | .watch .. => true
  | _ => false

/-- All runs stand in front of the duties that are not nested in a run. -/
def Agenda.Grounded (a : Agenda) : Prop :=
  a.duties.Pairwise fun duty later => duty.isNested = false → later.entry? = none

namespace Agenda

theorem Grounded.next (h : a.Grounded) : (a.next p m).Grounded := by
  cases hduties : a.duties with
  | nil => rwa [next_of_done hduties]
  | cons duty duties =>
    obtain ⟨new, hnew, hnext⟩ := a.exists_becomes p m hduties
    rw [Grounded, hduties, List.pairwise_cons] at h
    obtain ⟨hfirst, hrest⟩ := h
    rw [Grounded, hnext, List.pairwise_append]
    refine ⟨?_, hrest, ?_⟩
    · cases hnew <;> simp [Duty.isNested]
    · cases hnew <;> simp_all [Duty.isNested]

/-- While the first duty is not nested in a run, nothing runs. -/
theorem Grounded.runningIds_eq_nil (h : a.Grounded) {duty : Duty} {duties : List Duty}
    (hduties : a.duties = duty :: duties) (hground : duty.isNested = false) :
    a.runningIds = [] := by
  rw [Grounded, hduties, List.pairwise_cons] at h
  have hfirst : duty.entry? = none := by cases duty <;> first | rfl | contradiction
  have hlater : duties.filterMap Duty.entry? = [] :=
    List.filterMap_eq_nil_iff.mpr fun d hd => h.1 d hd hground
  rw [runningIds, hduties, List.filterMap_cons, hfirst, hlater]
  rfl

/-- How a step changes which tasks run, and which tasks are stored. -/
inductive Rearranges (a : Agenda) : List Nat → List Task → Prop
  | same : Rearranges a a.runningIds a.state.pending
  | launch : Rearranges a (Number.countUp a.state.lastTaskId 1 :: a.runningIds) a.state.pending
  | resume (t : Task) (waiting : List Task) (duties : List Duty)
    (h : a.duties = .resume (t :: waiting) :: duties) :
    Rearranges a (t.id :: a.runningIds) a.state.pending
  | leave (id : Nat) (others : List Nat) (stored : Option Task) (h : a.runningIds = id :: others)
    (hid : ∀ t ∈ stored, t.id = id) : Rearranges a others (a.state.pending ++ stored.toList)
  | look (duties : List Duty) (h : a.duties = .look :: duties) : Rearranges a a.runningIds []
  | passed (duties : List Duty) (h : a.duties = .resume [] :: duties) :
    Rearranges a a.runningIds ((a.kept ++ a.state.pending).mergeSort fun t u => t.id ≤ u.id)

theorem rearranges_leave {entry : Entry} {stack : Stack} {duties : List Duty}
    (ha : a.duties = .run entry stack :: duties) {s : State} (hs : s.pending = a.state.pending)
    (rest : Option (Wake × Stack)) :
    Rearranges a (({ a with duties, state := s } : Agenda).leave entry rest).runningIds
      (({ a with duties, state := s } : Agenda).leave entry rest).state.pending := by
  have hrunning : a.runningIds = entry.id :: (duties.filterMap Duty.entry?).map Entry.id := by
    rw [runningIds, ha]
    rfl
  cases entry with
  | resumed t =>
    have hleave := Rearranges.leave t.id _ none hrunning (by simp)
    simpa [leave, runningIds, hs] using hleave
  | launched id origin actions =>
    cases rest with
    | none =>
      have hleave := Rearranges.leave id _ none hrunning (by simp)
      simpa [leave, runningIds, State.keep, hs] using hleave
    | some rest =>
      obtain ⟨wake, stack⟩ := rest
      have hleave := Rearranges.leave id _ (some ⟨id, origin, stack, wake⟩) hrunning (by simp)
      simpa [leave, runningIds, State.keep, hs] using hleave

theorem rearranges_next (p : Program) (m : Moment) (a : Agenda) :
    Rearranges a (a.next p m).runningIds (a.next p m).state.pending := by
  obtain ⟨duties, nesting, kept, ran, s⟩ := a
  cases duties with
  | nil => exact .same
  | cons duty duties =>
    cases duty with
    | run entry stack =>
      obtain ⟨hpending, -⟩ := @advance_none_tasks p m entry.origin stack s
      have hsame : ∀ a' : Agenda, a'.runningIds =
          runningIds ⟨.run entry stack :: duties, nesting, kept, ran, s⟩ →
          a'.state.pending = s.pending →
          Rearranges ⟨.run entry stack :: duties, nesting, kept, ran, s⟩ a'.runningIds
            a'.state.pending := by
        intro a' hids hpending
        rw [hids, hpending]
        exact .same
      simp only [next]
      rcases goOn_cases p m ⟨.run entry stack :: duties, nesting, kept, ran, s⟩ entry stack duties
        with ⟨w, -, hgoOn⟩ | hgoOn <;> rw [hgoOn]
      · exact hsame _ rfl (State.pending_store _ _ _)
      · cases hresult : Script.advance p m none entry.origin stack s <;> rw [hresult] at hpending
        · exact rearranges_leave rfl hpending none
        · exact rearranges_leave rfl hpending _
        · exact hsame _ rfl hpending
    | watch name lists =>
      cases lists with
      | nil => exact .same
      | cons actions lists => exact .launch
    | start announced lists =>
      cases lists with
      | nil => exact .same
      | cons e lists =>
        cases announced with
        | false => exact .launch
        | true =>
          have hlaunch :=
            Rearranges.launch (a := ⟨.start true (e :: lists) :: duties, nesting, kept, ran, s⟩)
          simpa [next, Agenda.launch, State.takeTaskId, runningIds, List.filterMap_cons,
            Duty.entry?, Entry.id] using hlaunch
    | touch t => exact .same
    | key t => exact .same
    | look => exact .look duties rfl
    | resume waiting =>
      cases waiting with
      | nil => exact .passed duties rfl
      | cons t waiting =>
        simp only [next]
        split
        · exact .resume t waiting duties rfl
        · exact .same

end Agenda

theorem sound_next (h : a.books.Sound) : (a.next p m).books.Sound := by
  by_cases hfirst : a.duties.head? = some .look
  · obtain ⟨duties, nesting, kept, ran, s⟩ := a
    obtain ⟨duties, rfl⟩ := List.head?_eq_some_iff.mp hfirst
    refine h.congr rfl ?_ ?_
    · simp only [Agenda.books, Books.ids, Agenda.next, List.filterMap_cons, Duty.entry?,
        List.flatMap_cons, Duty.waiting, List.nil_append, List.append_nil,
        ← Multiset.coe_add, Multiset.map_add]
      ac_rfl
    · simp only [Agenda.books, Agenda.next, List.flatMap_cons, Duty.waiting,
        List.nil_append, List.append_nil, ← Multiset.coe_add]
      ac_rfl
  · exact (a.posting_next p m hfirst).sound h

/-- The order of the tasks at an agenda, where the runs of `as` count. While a pass goes on, the
tasks that it has already stored are in no order. -/
structure InOrder (as : List Agenda) (a : Agenda) : Prop where
  sound : a.books.Sound
  grounded : a.Grounded
  descending : a.state.lastTaskId < Number.counterMax → a.runningIds.Pairwise (· > ·)
  ordered : a.state.lastTaskId < Number.counterMax → (∀ waiting, .resume waiting ∉ a.duties) →
    (a.state.pending.map Task.id).Pairwise (Precedes as) ∧
      ∀ t ∈ a.state.pending, ∀ id ∈ a.runningIds, Precedes as t.id id

namespace InOrder

theorem runningId_le (h : InOrder as a) {id : Nat} (hid : id ∈ a.runningIds) :
    id ≤ a.state.lastTaskId := by
  refine h.sound.given id ?_
  simp only [Books.ids, Agenda.books, Multiset.map_coe, Multiset.mem_add, Multiset.mem_coe]
  exact .inl (.inl hid)

theorem pendingId_le (h : InOrder as a) {t : Task} (ht : t ∈ a.state.pending) :
    t.id ≤ a.state.lastTaskId := by
  refine h.sound.given t.id ?_
  simp only [Books.ids, Agenda.books, Multiset.map_coe, Multiset.mem_add, Multiset.mem_coe]
  exact .inr (List.mem_map_of_mem (List.mem_append_right _ ht))

/-- A pass that is still going on goes on after the next step, unless it is over. -/
theorem resume_notMem (hnext : ∀ waiting, .resume waiting ∉ (a.next p m).duties) :
    (∀ waiting, .resume waiting ∉ a.duties) ∨ ∃ duties, a.duties = .resume [] :: duties := by
  cases hduties : a.duties with
  | nil => exact .inl (by simp)
  | cons duty duties =>
    have hlater : ∀ waiting, .resume waiting ∉ duties := fun waiting hmem =>
      hnext waiting (a.mem_duties_next p m hduties hmem)
    obtain ⟨new, hnew, hduties'⟩ := a.exists_becomes p m hduties
    cases hnew with
    | resumesOver => exact .inr ⟨duties, rfl⟩
    | due waiting _ => exact absurd (hduties' ▸ by simp) (hnext waiting)
    | notDue waiting _ => exact absurd (hduties' ▸ by simp) (hnext waiting)
    | _ => exact .inl fun waiting => by simpa using hlater waiting

theorem descending_next (h : InOrder as a)
    (hlt : (a.next p m).state.lastTaskId < Number.counterMax) :
    (a.next p m).runningIds.Pairwise (· > ·) := by
  have hlast : a.state.lastTaskId < Number.counterMax :=
    Reaches.lastTaskId_lt (p := p) (m := m) ⟨1, rfl⟩ hlt
  have hrunning := h.descending hlast
  have hmoves := a.rearranges_next p m
  generalize (a.next p m).runningIds = ids at hmoves ⊢
  generalize (a.next p m).state.pending = pending at hmoves
  cases hmoves with
  | same => exact hrunning
  | launch =>
    refine List.pairwise_cons.mpr ⟨fun id hid => ?_, hrunning⟩
    rw [Number.countUp_of_le hlast]
    exact Nat.lt_succ_of_le (h.runningId_le hid)
  | resume t waiting duties hduties =>
    rw [h.grounded.runningIds_eq_nil hduties rfl]
    exact List.pairwise_singleton _ _
  | leave id others stored hids _ =>
    rw [hids] at hrunning
    exact (List.pairwise_cons.mp hrunning).2
  | look duties _ => exact hrunning
  | passed duties _ => exact hrunning

/-- A pass leaves the tasks in the order of their ids. -/
theorem ordered_passed (h : InOrder as a) {duties : List Duty}
    (hduties : a.duties = .resume [] :: duties)
    (hlt : (a.next p m).state.lastTaskId < Number.counterMax) :
    ((a.next p m).state.pending.map Task.id).Pairwise (· < ·) := by
  have hsound := sound_next (p := p) (m := m) h.sound
  have hdistinct : ((a.next p m).state.pending.map Task.id).Nodup := by
    have hids := hsound.distinct hlt
    simp only [Books.ids, Agenda.books, Multiset.map_coe, Multiset.coe_add,
      Multiset.coe_nodup, List.map_append, List.nodup_append] at hids
    exact hids.2.1.2.1
  have hsorted : (a.next p m).state.pending.Pairwise fun t u => t.id ≤ u.id := by
    simp only [Agenda.next, hduties]
    exact mergeSort_id_sorted _
  rw [List.pairwise_map]
  rw [List.Nodup, List.pairwise_map] at hdistinct
  exact hdistinct.imp₂ (fun _ _ hne hle => Nat.lt_of_le_of_ne hle hne) hsorted

theorem ordered_next (h : InOrder as a) (ha : a ∈ as)
    (hlt : (a.next p m).state.lastTaskId < Number.counterMax)
    (hnext : ∀ waiting, .resume waiting ∉ (a.next p m).duties) :
    ((a.next p m).state.pending.map Task.id).Pairwise (Precedes as) ∧
      ∀ t ∈ (a.next p m).state.pending, ∀ id ∈ (a.next p m).runningIds, Precedes as t.id id := by
  have hlast : a.state.lastTaskId < Number.counterMax :=
    Reaches.lastTaskId_lt (p := p) (m := m) ⟨1, rfl⟩ hlt
  rcases resume_notMem hnext with hno | ⟨duties, hduties⟩
  · obtain ⟨hstored, hrunning⟩ := h.ordered hlast hno
    have hmoves := a.rearranges_next p m
    generalize (a.next p m).runningIds = ids at hmoves ⊢
    generalize (a.next p m).state.pending = pending at hmoves ⊢
    cases hmoves with
    | same => exact ⟨hstored, hrunning⟩
    | launch =>
      refine ⟨hstored, fun t ht => List.forall_mem_cons.mpr ⟨.inl ?_, hrunning t ht⟩⟩
      rw [Number.countUp_of_le hlast]
      exact Nat.lt_succ_of_le (h.pendingId_le ht)
    | resume t waiting duties hduties => exact absurd (hduties ▸ List.mem_cons_self) (hno _)
    | leave id others stored hids hid =>
      have hinside : ∀ id' ∈ ids, Precedes as id id' := fun id' hid' =>
        .inr ⟨a, ha, hids ▸ (List.singleton_sublist.mpr hid').cons_cons id⟩
      rw [hids] at hrunning
      rw [List.map_append, List.pairwise_append, List.forall_mem_append]
      refine ⟨⟨hstored, ?_, ?_⟩,
        fun t ht => (List.forall_mem_cons.mp (hrunning t ht)).2, fun t ht => ?_⟩
      · cases stored <;> simp
      · simp only [List.forall_mem_map, Option.mem_toList]
        intro t ht u hu
        rw [hid u hu]
        exact (List.forall_mem_cons.mp (hrunning t ht)).1
      · rw [hid t (Option.mem_toList.mp ht)]
        exact hinside
    | look duties hduties => simp
    | passed duties hduties => exact absurd (hduties ▸ List.mem_cons_self) (hno _)
  · have hrunning : (a.next p m).runningIds = [] := by
      rw [← h.grounded.runningIds_eq_nil hduties rfl]
      simp only [Agenda.next, hduties, Agenda.runningIds, List.filterMap_cons, Duty.entry?]
    rw [hrunning]
    exact ⟨(h.ordered_passed hduties hlt).imp fun hlt => .inl hlt, by simp⟩

theorem next (h : InOrder as a) (ha : a ∈ as) : InOrder as (a.next p m) :=
  ⟨sound_next h.sound, h.grounded.next, h.descending_next, h.ordered_next ha⟩

end InOrder

/-! ### The order along a play -/

theorem Course.reaches_of_mem (h : Course p m a as c) {b : Agenda} (hb : b ∈ as) :
    Reaches p m b c := by
  obtain ⟨earlier, later, rfl⟩ := List.append_of_mem hb
  exact h.onward.reaches

theorem Course.inOrder {all : List Agenda} (h : Course p m a as c) (hall : ∀ b ∈ as, b ∈ all)
    (ha : InOrder all a) :
    (∀ b ∈ as, InOrder all b) ∧ InOrder all c := by
  induction h with
  | done _ => exact ⟨by simp, ha⟩
  | next _ _ ih =>
    obtain ⟨hfirst, hrest⟩ := List.forall_mem_cons.mp hall
    obtain ⟨hbetween, hend⟩ := ih hrest (ha.next hfirst)
    exact ⟨List.forall_mem_cons.mpr ⟨ha, hbetween⟩, hend⟩

/-- Before anything runs the tasks are in order, if those that wait are. -/
theorem inOrder_of_waiting {all : List Agenda} {duties : List Duty} {s : State}
    (hs : WaitSoundly s.pending s.lastTaskId)
    (hordered : s.lastTaskId < Number.counterMax → (s.pending.map Task.id).Pairwise (Precedes all))
    (hrunning : ∀ duty ∈ duties, duty.entry? = none)
    (hwaiting : ∀ duty ∈ duties, duty.waiting = []) :
    InOrder all ⟨duties, 0, [], [], s⟩ := by
  have hnone : duties.filterMap Duty.entry? = [] := List.filterMap_eq_nil_iff.mpr hrunning
  have hids : (⟨duties, 0, [], [], s⟩ : Agenda).runningIds = [] := by
    rw [Agenda.runningIds, hnone, List.map_nil]
  refine ⟨sound_books hs hnone (List.flatMap_eq_nil_iff.mpr hwaiting), ?_, ?_, ?_⟩
  · refine List.pairwise_of_forall_mem_list fun duty _ later hlater _ => hrunning later hlater
  · rw [hids]
    exact fun _ => .nil
  · rw [hids]
    exact fun hlt _ => ⟨hordered hlt, by simp⟩

/-- Timers are set up in the order of their ids. -/
theorem addTimers_ordered (timers : List (Float × String × List Action)) {s : State}
    (hs : WaitSoundly s.pending s.lastTaskId) (hpending : s.pending = []) :
    let t := timers.foldl State.addTimer s
    WaitSoundly t.pending t.lastTaskId ∧
      (t.lastTaskId < Number.counterMax → (t.pending.map Task.id).Pairwise (· < ·)) := by
  refine List.foldlRecOn (motive := fun t : State => WaitSoundly t.pending t.lastTaskId ∧
    (t.lastTaskId < Number.counterMax → (t.pending.map Task.id).Pairwise (· < ·))) _ _
      ⟨hs, by simp [hpending]⟩ ?_
  rintro t ⟨hsound, hordered⟩ timer -
  refine ⟨waitSoundly_addTimer timer hsound, fun hlt => ?_⟩
  have hnew : Number.countUp t.lastTaskId 1 = t.lastTaskId + 1 := Number.countUp_of_lt hlt
  have hlast : t.lastTaskId < Number.counterMax := Number.lt_of_countUp_lt hlt
  simp only [State.addTimer, State.takeTaskId, State.keep, List.map_append, List.map_cons,
    List.map_nil, hnew]
  refine List.pairwise_append.mpr ⟨hordered hlast, List.pairwise_singleton _ _, ?_⟩
  simp only [List.forall_mem_map, List.mem_singleton]
  rintro u hu _ rfl
  exact Nat.lt_succ_of_le (hsound.id_le hu)

end

namespace Engine
variable {e : Engine} {d : Document} {w : World} {beats : List Beat} {records : List Record}

theorem Reachable.play (he : e.Reachable) (d : Document) (w : World) (beats : List Beat) :
    (e.play d w beats).1.Reachable :=
  List.foldlRecOn (motive := fun r : Engine × World => r.1.Reachable) _ _ (he.start d w)
    fun r hr b _ => hr.update b.seconds (b.change r.2)

/-- Work that is done leaves the tasks of the session in order. -/
theorem waiting_of_end {all : List Agenda} {c : Agenda} {r : Engine × World} (hc : InOrder all c)
    (hdone : c.duties = []) (hstate : c.state = r.1.state r.2)
    (hlt : r.1.lastTaskId < Number.counterMax) :
    (r.1.waiting.map Task.id).Pairwise (Precedes all) := by
  have hordered := hc.ordered
  rw [hstate] at hordered
  exact (hordered hlt (by simp [hdone])).1

namespace Recorded

/-- All through a play, and after it, the tasks are in order. -/
theorem inOrder (he : e.Reachable) {all : List Agenda} (h : e.Recorded d w beats records)
    (hall : ∀ r ∈ records, ∀ a ∈ r.agendas, a ∈ all) :
    (∀ r ∈ records, ∀ a ∈ r.agendas, InOrder all a) ∧
      ((e.play d w beats).1.lastTaskId < Number.counterMax →
        ((e.play d w beats).1.waiting.map Task.id).Pairwise (Precedes all)) := by
  induction h with
  | @start as c h =>
    rw [List.forall_mem_singleton] at hall ⊢
    obtain ⟨hsound, hordered⟩ := addTimers_ordered ((Handler.ofDocument d).filterMap Handler.timer?)
      (s := State.mirrorScore ⟨.ofList (d.variableNames.map (·, 0)), none, [], e.lastTaskId,
        .empty, e.random, w⟩) (.nil he.waitSoundly.bounded) rfl
    have hbegin : InOrder all (Agenda.ofBegin d e.lastTaskId e.random w) :=
      inOrder_of_waiting hsound
        (fun hlt => (hordered hlt).imp .inl) (by simp [Duty.entry?]) (by simp [Duty.waiting])
    obtain ⟨hcourse, hend⟩ := h.inOrder hall hbegin
    exact ⟨hcourse, waiting_of_end hend h.duties_eq_nil (state_of_course_begin h)⟩
  | @update beats records as c s b _ hs h ih =>
    obtain ⟨hbefore, hlast⟩ := List.forall_mem_append.mp hall
    rw [List.forall_mem_singleton] at hlast
    obtain ⟨hearlier, hwaiting⟩ := ih hbefore
    have hpending : (e.play d w beats).1.waiting = s.pending := by
      rw [waiting, hs, Option.map_some, Option.getD_some]
    have hsound : WaitSoundly s.pending (e.play d w beats).1.lastTaskId :=
      hpending ▸ (he.play d w beats).waitSoundly
    rw [hpending] at hwaiting
    have hbeat : InOrder all (Agenda.ofBeat (e.play d w beats) b s) :=
      inOrder_of_waiting hsound hwaiting (by simp [Duty.entry?]) (by simp [Duty.waiting])
    obtain ⟨hcourse, hend⟩ := h.inOrder hlast hbeat
    exact ⟨List.forall_mem_append.mpr ⟨hearlier, List.forall_mem_singleton.mpr hcourse⟩,
      waiting_of_end hend h.duties_eq_nil (state_of_course_beat hs h)⟩

/-- A counter of ids that has not run out at the end of a play had not run out in it. -/
theorem lastTaskId_lt (h : e.Recorded d w beats records)
    (hlt : (e.play d w beats).1.lastTaskId < Number.counterMax) :
    ∀ r ∈ records, ∀ a ∈ r.agendas, a.state.lastTaskId < Number.counterMax := by
  induction h with
  | @start as c h =>
    rw [List.forall_mem_singleton]
    have hend : c.state.lastTaskId < Number.counterMax := by rwa [state_of_course_begin h]
    exact fun a ha => (h.reaches_of_mem ha).lastTaskId_lt hend
  | @update beats records as c s b _ hs h ih =>
    have hend : c.state.lastTaskId < Number.counterMax := by rwa [state_of_course_beat hs h]
    refine List.forall_mem_append.mpr ⟨ih (h.reaches.lastTaskId_lt hend), ?_⟩
    rw [List.forall_mem_singleton]
    exact fun a ha => (h.reaches_of_mem ha).lastTaskId_lt hend

/-- A run that goes on inside of another one is that of a task which was started later. -/
theorem lt_of_runsInside (he : e.Reachable) (h : e.Recorded d w beats records)
    (hlt : (e.play d w beats).1.lastTaskId < Number.counterMax) {inner outer : Nat}
    (hinside : RunsInside (records.flatMap (·.agendas)) inner outer) : outer < inner := by
  obtain ⟨a, ha, hnested⟩ := hinside
  obtain ⟨r, hr, ha⟩ := List.mem_flatMap.mp ha
  obtain ⟨hagendas, -⟩ := h.inOrder he fun r hr a ha => List.mem_flatMap.mpr ⟨r, hr, ha⟩
  have hids := ((hagendas r hr a ha).descending (h.lastTaskId_lt hlt r hr a ha)).sublist hnested
  simpa using hids

end Recorded

/-- After a frame the waiting tasks stand in the order of their ids. -/
theorem waiting_ascending (he : e.Reachable) (d : Document) (w : World)
    (beats : List Beat) (b : Beat)
    (hlast : (e.play d w (beats ++ [b])).1.lastTaskId < Number.counterMax) :
    (e.play d w (beats ++ [b])).1.waiting.Pairwise fun t u => t.id < u.id := by
  obtain ⟨s, hs, -⟩ := e.exists_session_play d w beats
  have hdistinct := (he.play d w (beats ++ [b])).waitSoundly.nodup hlast
  rw [List.Nodup, List.pairwise_map] at hdistinct
  have hsorted : (e.play d w (beats ++ [b])).1.waiting.Pairwise fun t u => t.id ≤ u.id := by
    rw [play_concat, beat_of_session hs]
    exact pending_resumeDue_sorted _ _ _
  exact hdistinct.imp₂ (fun _ _ hne hle => Nat.lt_of_le_of_ne hle hne) hsorted

/-- A play goes on with a frame, which goes on with the waiting tasks that are due, in the order of
the list. -/
theorem Recorded.exists_update (h : e.Recorded d w beats records) {s : Session}
    (hs : (e.play d w beats).1.session = some s) (hprogram : s.program = e.programOf d) (b : Beat) :
    let looking :=
      s.beforeLook b.seconds ((e.play d w beats).1.state (b.change (e.play d w beats).2))
    ∃ r, e.Recorded d w (beats ++ [b]) (records ++ [r]) ∧
      r.moment = s.moment.after (frameTime b.seconds) ∧
      (∃ ran, ⟨[.look], 0, [], ran, looking⟩ ∈ r.agendas) ∧
      r.resumptions = looking.pending.filter (·.wake.isDue r.moment) := by
  intro looking
  obtain ⟨ran, hreach⟩ :=
    reaches_advance s b.seconds ((e.play d w beats).1.state (b.change (e.play d w beats).2))
  obtain ⟨as, has⟩ := Course.exists_of_reaches hreach rfl
  obtain ⟨hlook, hresumed⟩ := has.exists_look
  rw [state_of_session hs, hprogram] at has
  exact ⟨⟨s.moment.after (frameTime b.seconds), as⟩, .update b h hs has, rfl, hlook, hresumed⟩

/-- In every frame of every play, as long as the counter of ids has not run out: the tasks that are
resumed are the due ones, in the order in which they wait when the frame looks at them. The first of
any two has the smaller id, unless it ran inside of the second one, and then it has the greater id.
So they are resumed in the order of their ids just if none ran inside of a later one. Afterwards the
waiting tasks are in the order of their ids. -/
theorem play_resumes_in_order (he : e.Reachable) (d : Document) (w : World)
    (beats : List Beat) (b : Beat)
    (hlast : (e.play d w (beats ++ [b])).1.lastTaskId < Number.counterMax) :
    ∃ s records r, (e.play d w beats).1.session = some s ∧ e.Recorded d w (beats ++ [b])
      (records ++ [r]) ∧
      let waiting :=
        (s.beforeLook b.seconds
          ((e.play d w beats).1.state (b.change (e.play d w beats).2))).pending
      let inside := RunsInside ((records ++ [r]).flatMap (·.agendas))
      r.resumptions = waiting.filter (·.wake.isDue r.moment) ∧
      (r.resumptions.Pairwise fun t u => (t.id < u.id ∧ ¬inside t.id u.id) ∨
        (u.id < t.id ∧ inside t.id u.id)) ∧
      ((r.resumptions.Pairwise fun t u => t.id < u.id) ↔
        r.resumptions.Pairwise fun t u => ¬inside t.id u.id) ∧
      (e.play d w (beats ++ [b])).1.waiting.Pairwise fun t u => t.id < u.id := by
  obtain ⟨s, hs, hprogram⟩ := e.exists_session_play d w beats
  obtain ⟨records, hrecords⟩ := e.exists_recorded d w beats
  obtain ⟨r, hrecorded, -, ⟨ran, hlook⟩, hresumed⟩ := hrecords.exists_update hs hprogram b
  refine ⟨s, records, r, hs, hrecorded, ?_⟩
  intro waiting inside
  have hyounger : ∀ {inner outer : Nat}, inside inner outer → outer < inner :=
    hrecorded.lt_of_runsInside he hlast
  have hwaiting : waiting.Pairwise fun t u => t.id < u.id ∨ inside t.id u.id := by
    obtain ⟨hagendas, -⟩ :=
      hrecorded.inOrder he fun r' hr' a ha => List.mem_flatMap.mpr ⟨r', hr', ha⟩
    have hr : r ∈ records ++ [r] := by simp
    obtain ⟨hordered, -⟩ :=
      (hagendas r hr _ hlook).ordered (hrecorded.lastTaskId_lt hlast r hr _ hlook) (by simp)
    exact List.pairwise_map.mp hordered
  have hpairs : r.resumptions.Pairwise fun t u =>
      (t.id < u.id ∧ ¬inside t.id u.id) ∨ (u.id < t.id ∧ inside t.id u.id) := by
    have hprecedes : r.resumptions.Pairwise fun t u => t.id < u.id ∨ inside t.id u.id := by
      rw [hresumed]
      exact hwaiting.filter _
    refine hprecedes.imp fun {t u} hprecedes => ?_
    by_cases hinside : inside t.id u.id
    · exact .inr ⟨hyounger hinside, hinside⟩
    · exact .inl ⟨hprecedes.resolve_right hinside, hinside⟩
  refine ⟨hresumed, hpairs, ⟨fun h => ?_, fun h => ?_⟩, waiting_ascending he d w beats b hlast⟩
  · exact h.imp fun hlt hinside => Nat.lt_asymm hlt (hyounger hinside)
  · exact hpairs.imp₂ (fun _ _ hpair hno => (hpair.resolve_right fun h => hno h.2).1) h

end Engine

/-! ### A watcher that goes on before the script which started it -/

/-- A script that writes to a watched variable. The script and the watcher go on with the same
blocks. -/
def watchedDocument (rest : List (Block Unit)) : Document where
  chains := [
    ⟨1, 0, 0, ⟨(), "on_start", .empty, none, none⟩ ::
      ⟨(), "set_var", .ofList [("var", "x")], none, none⟩ :: rest⟩,
      ⟨2, 0, 80, ⟨(), "on_var_change", .ofList [("var", "x")], none, none⟩ :: rest⟩]
  variableNames := ["x"]

/-- A loop over nothing. -/
def emptyLoop (op : String) : Block Unit :=
  ⟨(), "repeat_while", .ofList [("var", "x"), ("op", op)], some [], none⟩

section
variable {m : Moment} {origin : String} {s : State}

theorem launch_of_run {p : Program} {cascade : Cascade} {actions : List Action} {t : State}
    {rest : Option (Wake × Stack)}
    (h : run p m cascade origin [.begin actions] s.takeTaskId.2 = (t, rest)) :
    launch p m cascade origin actions s = t.keep s.takeTaskId.1 origin rest := by
  simp only [State.takeTaskId] at h
  simp only [launch, State.takeTaskId, h]

/-- Under the standard limits a loop over nothing is suspended after a hundred rounds, if its
condition holds. -/
theorem run_emptyLoop {p : Program} (hp : p.limits = .standard) (cascade : Cascade) {c : Condition}
    (hholds : s.holds c = true) (below : Stack) {done : Nat} (hdone : done ≤ 100) :
    run p m cascade origin (.conditional c [] done 0 :: below) s =
      (s, some (.atFrame (Number.countUp m.frame 1), .conditional c [] 100 100 :: below)) := by
  induction hdone using Nat.decreasingInduction with
  | self => exact run_of_suspended (by simp [advance, hp, hholds, Limits.standard, Limits.yieldsAt])
  | of_succ done hlt ih =>
    have hgoes : Limits.yieldsAt p.limits.loopYieldInterval done 0 = false := by
      rw [hp]
      exact Limits.yieldsAt_of_le 0 (.inr le_rfl) hlt
    have hceiling : ¬ p.limits.loopCeiling ≤ done := by
      rw [hp]
      simp only [Limits.standard]
      omega
    have hround : advance p m cascade origin (.conditional c [] done 0 :: below) s =
        .running (.begin [] :: .conditional c [] (done + 1) 0 :: below) s := by
      simp [advance, hholds, hgoes, hceiling]
    rw [run_of_running hround, run_of_running rfl]
    exact ih

/-- Tasks that have nothing left to do change nothing. -/
theorem resumeTasks_of_nothing_left {p : Program} {ts : List Task}
    (h : ∀ t ∈ ts, t.stack = [.sequence [] false]) (kept : List Task) :
    (resumeTasks p m kept ts s).2 = s := by
  induction ts generalizing kept with
  | nil => rfl
  | cons t ts ih =>
    obtain ⟨ht, hts⟩ := List.forall_mem_cons.mp h
    have hrun : run p m (p.cascade m) t.origin t.stack s = (s, none) := by
      rw [ht, run_of_running rfl, run_of_finished rfl]
    have hsame : (resumeTask p m kept t s).2 = s := by
      rw [resumeTask, hrun]
      split <;> rfl
    simp only [resumeTasks, hsame, ih hts]

/-- One of two loops that go on while a variable is zero and while it is not has to wait. -/
theorem exists_run_emptyLoops {p : Program} (hp : p.limits = .standard) (cascade : Cascade) :
    ∃ stack, run p m cascade origin [.begin (compileList [emptyLoop "==", emptyLoop "!="])] s =
      (s, some (.atFrame (Number.countUp m.frame 1), stack)) := by
  let equals : Condition := ⟨"x", some .eq, 0⟩
  let differs : Condition := ⟨"x", some .ne, 0⟩
  change ∃ stack,
    run p m cascade origin [.sequence [.repeatWhile equals [], .repeatWhile differs []] false] s = _
  rw [run_of_running rfl]
  by_cases hequals : s.holds equals = true
  · exact ⟨_, run_emptyLoop hp cascade hequals _ (Nat.zero_le 100)⟩
  · have hdiffers : s.holds differs = true := by
      simpa [State.holds, Condition.holds, Comparison.holds, equals, differs, bne] using hequals
    have hskipped : ∀ below, advance p m cascade origin (.conditional equals [] 0 0 :: below) s =
        .running below s := by
      simp [advance, hequals]
    rw [run_of_running (hskipped _), run_of_running rfl]
    exact ⟨_, run_emptyLoop hp cascade hdiffers _ (Nat.zero_le 100)⟩

end

section
variable {wake : Wake} {P : Stack → Prop}

/-- The watcher is the second task, and waits in front of the first one, which wrote to its
variable. -/
theorem begin_watchedDocument (rest : List (Block Unit)) (random : Random) (w : World)
    (hrest : ∀ cascade origin s, ∃ stack, P stack ∧
      run (.ofHandlers .standard (Handler.ofDocument (watchedDocument rest))) .start cascade origin
        [.begin (compileList rest)] s = (s, some (wake, stack))) :
    ∃ inner outer, P inner ∧ P outer ∧
      (Session.begin .standard (watchedDocument rest) 0 random w).2.lastTaskId = 2 ∧
      (Session.begin .standard (watchedDocument rest) 0 random w).2.pending =
        [⟨2, Trigger.changeLabel "x", inner, wake⟩, ⟨1, Trigger.label .start, outer, wake⟩] := by
  let p : Program := .ofHandlers .standard (Handler.ofDocument (watchedDocument rest))
  let fresh : State := State.mirrorScore ⟨.ofList [("x", 0)], none, [], 0, .empty, random, w⟩
  let written : State := fresh.takeTaskId.2.store "x" 0
  obtain ⟨inner, hinner, hwatcher⟩ :=
    hrest (cascadeOf p .start 63) (Trigger.changeLabel "x") written.takeTaskId.2
  let watching : State := written.takeTaskId.2.keep 2 (Trigger.changeLabel "x") (some (wake, inner))
  have hwrite : perform p .start (p.cascade .start) (Trigger.label .start) (.setVariable "x" 0)
      fresh.takeTaskId.2 =
      watching := launch_of_run hwatcher
  obtain ⟨outer, houter, hwriter⟩ := hrest (p.cascade .start) (Trigger.label .start) watching
  have hrun : run p .start (p.cascade .start) (Trigger.label .start)
      [.begin (.effect (.setVariable "x" 0) :: compileList rest)] fresh.takeTaskId.2 =
        (watching, some (wake, outer)) := by
    rw [run_of_running rfl, hwrite]
    exact hwriter
  have hbegin : (Session.begin .standard (watchedDocument rest) 0 random w).2 =
      watching.keep 1 (Trigger.label .start) (some (wake, outer)) := launch_of_run hrun
  exact ⟨inner, outer, hinner, houter, by rw [hbegin]; rfl, by rw [hbegin]; rfl⟩

end

namespace Engine

/-- The second task goes on before the first one, although both are due in the first frame. -/
theorem watcher_resumed_before_writer :
    let e : Engine := .ofSeed .standard 7
    ∃ records r, e.Recorded (watchedDocument [emptyLoop "==", emptyLoop "!="]) .empty [⟨id, 0.1⟩]
      (records ++ [r]) ∧
      r.resumptions.map Task.id = [2, 1] := by
  intro e
  let d : Document := watchedDocument [emptyLoop "==", emptyLoop "!="]
  let begun : Session × State := Session.begin .standard d 0 e.random .empty
  obtain ⟨inner, outer, -, -, -, hpending⟩ :=
    begin_watchedDocument (P := fun _ => True) _ e.random .empty fun cascade origin s =>
      (exists_run_emptyLoops rfl cascade).imp fun stack h => ⟨trivial, h⟩
  obtain ⟨records, hrecords⟩ := e.exists_recorded d .empty []
  have hs : (e.play d .empty []).1.session = some begun.1 := rfl
  obtain ⟨r, hrecorded, hmoment, -, hresumed⟩ := hrecords.exists_update hs rfl ⟨id, 0.1⟩
  refine ⟨records, r, hrecorded, ?_⟩
  have hwaiting : r.resumptions = begun.2.pending.filter (·.wake.isDue r.moment) := hresumed
  have hdue : (Wake.atFrame (Number.countUp Moment.start.frame 1)).isDue r.moment = true := by
    rw [hmoment]
    decide
  rw [hwaiting, hpending]
  simp [hdue]

theorem waiting_scripts_resumed :
    let e : Engine := .ofSeed .standard 7
    let d : Document := watchedDocument [⟨(), "wait", .empty, none, none⟩]
    e.Reachable ∧ (e.play d .empty [⟨id, 0.1⟩]).1.lastTaskId = 2 ∧
      ∃ records r, e.Recorded d .empty [⟨id, 0.1⟩] (records ++ [r]) ∧
        ((r.resumptions.Pairwise fun t u => t.id < u.id) ↔
          r.resumptions.Pairwise
            fun t u => ¬RunsInside ((records ++ [r]).flatMap (·.agendas)) t.id u.id) := by
  intro e d
  have he : e.Reachable := .new _ _
  obtain ⟨inner, outer, rfl, rfl, hbegin, hpending⟩ :=
    begin_watchedDocument (P := (· = [.sequence [] false])) [⟨(), "wait", .empty, none, none⟩]
      e.random .empty
    fun cascade origin s => ⟨_, rfl, run_of_suspended rfl⟩
  have hlast : (e.play d .empty [⟨id, 0.1⟩]).1.lastTaskId = 2 := by
    let begun : Session × State := Session.begin .standard d 0 e.random .empty
    have hnothing : ∀ t ∈ begun.2.pending, t.stack = [.sequence [] false] := by
      rw [hpending]
      simp
    have hresumed :=
      resumeTasks_of_nothing_left (p := begun.1.program) (m := begun.1.moment.after (frameTime 0.1))
        (s := { begun.1.beforeLook 0.1 ((e.play d .empty []).1.state (e.play d .empty []).2) with
          pending := [] }) hnothing []
    exact (congrArg State.lastTaskId hresumed).trans hbegin
  obtain ⟨s, records, r, -, hrecorded, -, -, hascending, -⟩ :=
    play_resumes_in_order he d .empty [] ⟨id, 0.1⟩ (hlast.trans_lt (by decide))
  exact ⟨he, hlast, records, r, hrecorded, hascending⟩

end Engine

end BlockStudio.Script
