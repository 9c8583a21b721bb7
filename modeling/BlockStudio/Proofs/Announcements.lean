import BlockStudio.Proofs.Courses

/-!
The lists that triggers start in the course of some work. Runs, watchers and waiting tasks fire
nothing; a duty to fire some lists announces these lists in order and nothing else. Main statement:
each list that is announced is reported by one event, and then a run of it begins; and no run begins
otherwise, but those of watchers.
-/
namespace BlockStudio.Script

namespace Duty

/-- Whether the duty neither fires lists nor decides which lists fire. -/
def isQuiet : Duty → Bool
  | .start announced _ => !announced
  | .touch _ => false
  | .key _ => false
  | _ => true

/-- Whether the duty leaves what fires as it is decided. -/
def isDecided : Duty → Bool
  | .touch _ => false
  | .key _ => false
  | _ => true

/-- Whether the duty reports each list that it starts for a trigger. -/
def isAnnounced : Duty → Bool
  | .start announced _ => announced
  | _ => true

end Duty

namespace Agenda

/-- The list that the next step starts, for a trigger or as a watcher, with the label under which it
runs. -/
def started? (a : Agenda) : Option (String × List Action) :=
  match a.duties with
  | .start _ (e :: _) :: _ => some e
  | .watch name (actions :: _) :: _ => some (Trigger.changeLabel name, actions)
  | _ => none

def looksAtTouches (a : Agenda) : Bool := a.duties.head?.any fun duty => duty matches .touch _

def looksAtKeys (a : Agenda) : Bool := a.duties.head?.any fun duty => duty matches .key _

section
variable {p : Program} {m : Moment} {a : Agenda}

theorem isQuiet_next (h : ∀ duty ∈ a.duties, duty.isQuiet = true) :
    ∀ duty ∈ (a.next p m).duties, duty.isQuiet = true := by
  refine a.forall_duties_next p m (fun duty new hnew hduty => ?_) h
  cases hnew <;> simp_all [Duty.isQuiet]

theorem isDecided_next (h : ∀ duty ∈ a.duties, duty.isDecided = true) :
    ∀ duty ∈ (a.next p m).duties, duty.isDecided = true := by
  refine a.forall_duties_next p m (fun duty new hnew hduty => ?_) h
  cases hnew <;> simp_all [Duty.isDecided]

theorem isAnnounced_next (h : ∀ duty ∈ a.duties, duty.isAnnounced = true) :
    ∀ duty ∈ (a.next p m).duties, duty.isAnnounced = true := by
  refine a.forall_duties_next p m (fun duty new hnew hduty => ?_) h
  cases hnew <;> simp_all [Duty.isAnnounced]

theorem announced?_of_quiet (h : ∀ duty ∈ a.duties, duty.isQuiet = true) : a.announced? = none := by
  unfold announced?
  split
  · rename_i e lists hfirst
    simpa [Duty.isQuiet] using h _ (List.mem_of_mem_head? hfirst)
  · rfl

theorem not_looksAt_of_decided (h : ∀ duty ∈ a.duties, duty.isDecided = true) :
    a.looksAtTouches = false ∧ a.looksAtKeys = false := by
  obtain ⟨duties, nesting, kept, ran, s⟩ := a
  cases duties with
  | nil => exact ⟨rfl, rfl⟩
  | cons duty duties =>
    have hduty := h duty List.mem_cons_self
    cases duty with
    | touch t => simp [Duty.isDecided] at hduty
    | key t => simp [Duty.isDecided] at hduty
    | _ => exact ⟨rfl, rfl⟩

theorem head?_before (h : a.duties ≠ []) (later : List Duty) :
    (a.before later).duties.head? = a.duties.head? := by
  rw [before, List.head?_append_of_ne_nil _ h]

/-- A run that a step brings was going on already, or the step starts its list. -/
theorem launched_next {id : Nat} {origin : String} {actions : List Action} {stack : Stack}
    (hrun : .run (.launched id origin actions) stack ∈ (a.next p m).duties) :
    (∃ stack', .run (.launched id origin actions) stack' ∈ a.duties) ∨
      a.started? = some (origin, actions) := by
  cases hduties : a.duties with
  | nil =>
    rw [next_of_done hduties, hduties] at hrun
    contradiction
  | cons duty duties =>
    obtain ⟨new, hnew, hnext⟩ := a.exists_becomes p m hduties
    rw [hnext] at hrun
    rcases List.mem_append.1 hrun with hmem | hlater
    · cases hnew with
      | goesOn entry stack₁ stack₂ =>
        obtain ⟨rfl, rfl⟩ : .launched id origin actions = entry ∧
            stack = stack₂ := by simpa using hmem
        exact .inl ⟨stack₁, List.mem_cons_self⟩
      | watched entry stack₁ stack₂ name lists =>
        obtain ⟨rfl, rfl⟩ : .launched id origin actions = entry ∧
            stack = stack₂ := by simpa using hmem
        exact .inl ⟨stack₁, List.mem_cons_self⟩
      | watcher name list lists =>
        simp only [List.mem_cons, Duty.run.injEq, Entry.launched.injEq,
          reduceCtorEq, List.not_mem_nil, or_false] at hmem
        obtain ⟨⟨-, rfl, rfl⟩, -⟩ := hmem
        exact .inr (by simp only [started?, hduties])
      | start announced origin' list lists =>
        simp only [List.mem_cons, Duty.run.injEq, Entry.launched.injEq,
          reduceCtorEq, List.not_mem_nil, or_false] at hmem
        obtain ⟨⟨-, rfl, rfl⟩, -⟩ := hmem
        exact .inr (by simp only [started?, hduties])
      | _ => simp at hmem
    · exact .inl ⟨stack, List.mem_cons_of_mem _ hlater⟩

/-- A list that is started is announced, or it is a watcher's. -/
theorem announced_of_started (h : ∀ duty ∈ a.duties, duty.isAnnounced = true) {origin : String}
    {actions : List Action} (hstarted : a.started? = some (origin, actions)) :
    a.announced? = some (origin, actions) ∨
      ∃ name lists, a.duties.head? = some (.watch name (actions :: lists)) ∧
        origin = Trigger.changeLabel name := by
  unfold started? at hstarted
  split at hstarted
  · rename_i announced e lists duties hduties
    obtain rfl := Option.some.inj hstarted
    have hannounced : announced = true := h (.start announced _) (hduties ▸ List.mem_cons_self)
    exact .inl (by simp [announced?, hduties, hannounced])
  · rename_i name list lists duties hduties
    obtain ⟨rfl, rfl⟩ := Prod.mk.inj (Option.some.inj hstarted)
    exact .inr ⟨name, lists, by simp [hduties], rfl⟩
  · contradiction

/-- A run that a step brings was going on already, or its list is announced, or it is a
watcher's. -/
theorem begun_next (h : ∀ duty ∈ a.duties, duty.isAnnounced = true) {id : Nat} {origin : String}
    {actions : List Action} {stack : Stack}
    (hrun : .run (.launched id origin actions) stack ∈ (a.next p m).duties) :
    (∃ stack', .run (.launched id origin actions) stack' ∈ a.duties) ∨
      a.announced? = some (origin, actions) ∨
      ∃ name lists, a.duties.head? = some (.watch name (actions :: lists)) ∧
        origin = Trigger.changeLabel name :=
  (launched_next hrun).imp_right (announced_of_started h)

/-- A list that is fired is reported by one event, and then a run of it begins. -/
theorem next_of_announced {label : String} {actions : List Action}
    (h : a.announced? = some (label, actions)) :
    a.emitted p m = [.triggerFired label] ∧
      ∃ id duties, (a.next p m).duties = .run (.launched id label actions)
        [.begin actions] :: duties := by
  refine ⟨emitted_of_announced h, ?_⟩
  obtain ⟨duties, nesting, kept, ran, s⟩ := a
  unfold announced? at h
  split at h
  · rename_i e lists hfirst
    obtain rfl := Option.some.inj h
    obtain ⟨duties, rfl⟩ := List.head?_eq_some_iff.1 hfirst
    exact ⟨_, _, rfl⟩
  · contradiction

end

end Agenda

/-- The lists that triggers start in the course of some work, each with the label of its trigger. -/
def announcements (as : List Agenda) : List (String × List Action) := as.filterMap Agenda.announced?

namespace Course
variable {p : Program} {m : Moment} {a c : Agenda} {as : List Agenda}

theorem duties_ne_nil (h : Course p m a as c) : ∀ b ∈ as, b.duties ≠ [] := by
  induction h with
  | done _ => simp
  | next ha _ ih => exact List.forall_mem_cons.2 ⟨ha, ih⟩

/-- Work in front of other duties is done first, as it is done without them. -/
theorem split {bs : List Agenda} {b : Agenda} (later : List Duty)
    (hb : Course p m (a.before later) bs b) (hreach : Reaches p m a c) (hc : c.duties = []) :
    ∃ as rest, bs = as.map (·.before later) ++ rest ∧ Course p m a as c ∧
      Course p m (c.before later) rest b := by
  obtain ⟨as, has⟩ := exists_of_reaches hreach hc
  obtain ⟨rest, hbs, hrest⟩ := has.before later hb
  exact ⟨as, rest, hbs, has, hrest⟩

theorem announcements_before (h : Course p m a as c) (later : List Duty) :
    announcements (as.map (·.before later)) = announcements as := by
  rw [announcements, List.filterMap_map]
  refine List.filterMap_congr fun b hb => ?_
  simp only [Function.comp_apply, Agenda.announced?, Agenda.head?_before (h.duties_ne_nil b hb)]

theorem announcements_of_quiet (h : Course p m a as c)
    (ha : ∀ duty ∈ a.duties, duty.isQuiet = true) :
    announcements as = [] := by
  obtain ⟨hall, -⟩ := h.forall_mem (fun b => ∀ duty ∈ b.duties, duty.isQuiet = true)
    (fun _ => Agenda.isQuiet_next) ha
  exact List.filterMap_eq_nil_iff.2 fun b hb => Agenda.announced?_of_quiet (hall b hb)

theorem not_looksAt (h : Course p m a as c) (ha : ∀ duty ∈ a.duties, duty.isDecided = true) :
    ∀ b ∈ as, b.looksAtTouches = false ∧ b.looksAtKeys = false := by
  obtain ⟨hall, -⟩ := h.forall_mem (fun b => ∀ duty ∈ b.duties, duty.isDecided = true)
    (fun _ => Agenda.isDecided_next) ha
  exact fun b hb => Agenda.not_looksAt_of_decided (hall b hb)

theorem not_looksAt_before (h : Course p m a as c) (ha : ∀ duty ∈ a.duties, duty.isDecided = true)
    (later : List Duty) :
    ∀ b ∈ as.map (·.before later), b.looksAtTouches = false ∧ b.looksAtKeys = false := by
  refine List.forall_mem_map.2 fun b hb => ?_
  simpa only [Agenda.looksAtTouches, Agenda.looksAtKeys, Agenda.head?_before (h.duties_ne_nil b hb)]
    using h.not_looksAt ha b hb

/-- The duty to fire some lists announces these lists, in order, and nothing else. The first list
runs until its task is over or waits, and fires nothing; then the duty has the others left. -/
theorem announcements_start {lists : List (String × List Action)} {kept : List Task}
    {ran : List Ran} {s : State} (h : Course p m ⟨[.start true lists], 0, kept, ran, s⟩ as c) :
    announcements as = lists := by
  induction lists generalizing as ran s with
  | nil =>
    cases h with
    | done h => contradiction
    | next _ hrest =>
      cases hrest with
      | done _ => rfl
      | next h _ => exact absurd rfl h
  | cons e lists ih =>
    obtain ⟨origin, actions⟩ := e
    cases h with
    | done h => contradiction
    | next _ hrest =>
      obtain ⟨ran₁, hreach⟩ :=
        reaches_launch runReaches_zero origin actions [] kept ran (s.emit (.triggerFired origin))
      obtain ⟨bs, rest, rfl, hbs, hrest⟩ :=
        split (a := Agenda.launch ⟨[], 0, kept, ran, _⟩ origin actions []) [.start true lists] hrest
          hreach rfl
      have hquiet : announcements bs = [] :=
        hbs.announcements_of_quiet (List.forall_mem_singleton.2 rfl)
      have hlists : announcements rest = lists := ih hrest
      rw [announcements, List.filterMap_cons, List.filterMap_append]
      change (origin, actions) :: (announcements (bs.map _) ++ announcements rest) = _
      rw [hbs.announcements_before, hquiet, hlists, List.nil_append]

/-- A look decides which lists are fired, and then they are. -/
theorem announcements_look {lists : List (String × List Action)} {kept : List Task}
    {ran : List Ran} {s : State} (h : Course p m a as c) (ha : a.duties ≠ [])
    (hnext : a.next p m = ⟨[.start true lists], 0, kept, ran, s⟩) :
    ∃ bs, as = a :: bs ∧ announcements bs = lists ∧
      Course p m ⟨[.start true lists], 0, kept, ran, s⟩ bs c := by
  cases h with
  | done h => contradiction
  | @next _ _ bs _ hrest =>
    rw [hnext] at hrest
    exact ⟨bs, rfl, hrest.announcements_start, hrest⟩

end Course

end BlockStudio.Script
