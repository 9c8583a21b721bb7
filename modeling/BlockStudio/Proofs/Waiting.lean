import BlockStudio.Proofs.Books
import BlockStudio.Proofs.Termination
import BlockStudio.Script.Engine
import Mathlib.Data.List.Range

/-!
The waiting tasks of a session. A frame takes them away, goes on with those that are due and puts
back what still waits, while the runs inside of the pass put new tasks to wait. Main statement: a
frame loses no task and doubles none, goes on with exactly the due ones, and leaves the tasks in
strictly ascending order of their ids.
-/
namespace BlockStudio.Script

/-- The engines that play leads to. Between the steps of an engine the game may change in any
way. -/
inductive Engine.Reachable : Engine → Prop
  | new (limits : Limits) (random : Random) : Reachable ⟨limits, random, 0, .empty, none⟩
  | start {e : Engine} (d : Document) (w : World) (he : Reachable e) : Reachable (e.start d w).1
  | update {e : Engine} (dt : Float) (w : World) (he : Reachable e) : Reachable (e.update dt w).1
  | stop {e : Engine} (he : Reachable e) : Reachable e.stop

/-- Waiting tasks are in order while nothing runs. -/
def WaitSoundly (tasks : List Task) (lastTaskId : Nat) : Prop :=
  Books.Sound ⟨0, 0, ↑tasks, 0, lastTaskId⟩

theorem WaitSoundly.nil {lastTaskId : Nat} (h : lastTaskId ≤ Number.counterMax) :
    WaitSoundly [] lastTaskId :=
  ⟨h, by simp [Books.ids], by simp [Books.ids], by simp⟩

namespace WaitSoundly
variable {tasks : List Task} {lastTaskId : Nat}

theorem nodup (h : WaitSoundly tasks lastTaskId) (hlt : lastTaskId < Number.counterMax) :
    (tasks.map Task.id).Nodup := by
  simpa [Books.ids] using h.distinct hlt

theorem id_le (h : WaitSoundly tasks lastTaskId) {t : Task} (ht : t ∈ tasks) :
    t.id ≤ lastTaskId := by
  apply h.given
  simp only [Books.ids, Multiset.map_zero, zero_add, Multiset.map_coe, Multiset.mem_coe]
  exact List.mem_map_of_mem ht

theorem stack_ne_nil (h : WaitSoundly tasks lastTaskId) {t : Task} (ht : t ∈ tasks) :
    t.stack ≠ [] := by
  apply h.unfinished
  simpa using ht

end WaitSoundly

section
variable {p : Program} {m : Moment} {duties : List Duty} {ran : List Ran} {s : State}

theorem waitSoundly_of_reaches {a : Agenda} (h : Reaches p m a ⟨[], 0, [], ran, s⟩)
    (hlook : .look ∉ a.duties) (ha : a.books.Sound) : WaitSoundly s.pending s.lastTaskId := by
  have hbooks := h.books (fun _ _ hposting hb => hposting.sound hb) hlook ha
  refine Books.Sound.congr hbooks rfl ?_ ?_
  · simp [Agenda.books, Books.ids]
  · simp [Agenda.books]

/-- Before any run begins and before the waiting tasks are looked at, the books hold the waiting
tasks alone. -/
theorem sound_books (hs : WaitSoundly s.pending s.lastTaskId)
    (hrunning : duties.filterMap Duty.entry? = []) (hwaiting : duties.flatMap Duty.waiting = []) :
    (Agenda.books ⟨duties, 0, [], [], s⟩).Sound := by
  refine Books.Sound.congr hs rfl ?_ ?_
  · simp [Agenda.books, Books.ids, hrunning, hwaiting]
  · simp [Agenda.books, hwaiting]

theorem waitSoundly_resumeDue (hs : WaitSoundly s.pending s.lastTaskId) :
    WaitSoundly (resumeDue p m s).pending (resumeDue p m s).lastTaskId := by
  obtain ⟨ran, h⟩ := reaches_pass (p := p) (m := m) [] [] s
  apply waitSoundly_of_reaches h (by simp)
  refine Books.Sound.congr hs rfl ?_ ?_
  · simp [Agenda.books, Books.ids, Duty.waiting, List.filterMap_cons, Duty.entry?]
  · simp [Agenda.books, Duty.waiting]

theorem waitSoundly_beforeLook {s : Session} (dt : Float) {st : State}
    (hs : WaitSoundly st.pending st.lastTaskId) :
    WaitSoundly (s.beforeLook dt st).pending (s.beforeLook dt st).lastTaskId := by
  obtain ⟨ran, h⟩ := reaches_beforeLook s dt st []
  exact waitSoundly_of_reaches h (by simp [Agenda.ofTriggers]) (sound_books hs rfl rfl)

theorem waitSoundly_advance {s : Session} (dt : Float) {st : State}
    (hs : WaitSoundly st.pending st.lastTaskId) :
    WaitSoundly (s.advance dt st).2.pending (s.advance dt st).2.lastTaskId :=
  waitSoundly_resumeDue (waitSoundly_beforeLook dt hs)

theorem waitSoundly_addTimer (t : Float × String × List Action)
    (hs : WaitSoundly s.pending s.lastTaskId) :
    WaitSoundly (s.addTimer t).pending (s.addTimer t).lastTaskId := by
  have hlaunch := (Posting.launch (m := .start) t.2.1 t.2.2).sound hs
  have hrest : ∀ wake stack, some (Wake.atTime (Moment.start.seconds + t.1), [Frame.begin t.2.2]) =
      some (wake, stack) →
      stack ≠ [] := by simp
  refine Books.Sound.congr ((Posting.leave (m := .start) _ 0 _ rfl hrest).sound hlaunch) rfl ?_ ?_
  · simp [Books.ids, State.addTimer, State.keep, State.takeTaskId, Ran.waiting?, Entry.id,
      coe_append_singleton]
  · simp [State.addTimer, State.keep, State.takeTaskId, Ran.waiting?, Entry.id, Entry.origin,
      coe_append_singleton]

theorem waitSoundly_begin (limits : Limits) (d : Document) {lastTaskId : Nat}
    (random : Random) (world : World) (hlast : lastTaskId ≤ Number.counterMax) :
    WaitSoundly (Session.begin limits d lastTaskId random world).2.pending
      (Session.begin limits d lastTaskId random world).2.lastTaskId := by
  obtain ⟨ran, h⟩ := reaches_begin limits d lastTaskId random world
  apply waitSoundly_of_reaches h (by simp [Agenda.ofBegin])
  apply sound_books _ rfl rfl
  exact List.foldlRecOn
    (motive := fun s : State => WaitSoundly s.pending s.lastTaskId) _ _ (.nil hlast) fun _ hs t _ =>
      waitSoundly_addTimer t hs

end

namespace Engine

def waiting (e : Engine) : List Task := (e.session.map (·.pending)).getD []

theorem Reachable.waitSoundly {e : Engine} (he : e.Reachable) :
    WaitSoundly e.waiting e.lastTaskId := by
  induction he with
  | new limits random => exact .nil (Nat.zero_le _)
  | @start e d w he ih => exact waitSoundly_begin e.limits d e.random w ih.bounded
  | @update e dt w he ih =>
    cases hs : e.session with
    | none => simpa [Engine.update, hs] using ih
    | some s =>
      have hstate : WaitSoundly s.pending e.lastTaskId := by simpa [waiting, hs] using ih
      let st := s.state e.lastTaskId e.faults e.random w
      have hadvance : WaitSoundly (s.advance dt st).1.pending (s.advance dt st).2.lastTaskId :=
        waitSoundly_advance dt hstate
      simpa [Engine.update, hs, waiting, resume] using hadvance
  | stop he ih => exact .nil ih.bounded

end Engine

def Entry.resumed? : Entry → Option Task
  | .resumed t => some t
  | .launched .. => none

def Entry.launchedId? : Entry → Option Nat
  | .resumed _ => none
  | .launched id _ _ => some id

theorem map_id_eq_add (entries : Multiset Entry) :
    entries.map Entry.id =
      (entries.filterMap Entry.resumed?).map Task.id + entries.filterMap Entry.launchedId? := by
  induction entries using Multiset.induction_on with
  | empty => rfl
  | cons entry entries ih =>
    cases entry with
    | resumed t => simp [Multiset.filterMap_cons, Entry.resumed?, Entry.launchedId?, Entry.id, ih]
    | launched id origin actions =>
      simp [Multiset.filterMap_cons, Entry.resumed?, Entry.launchedId?, Entry.id, ih]

namespace Books

/-- All runs, going on or over. -/
def entries (b : Books) : Multiset Entry := b.running + b.ran.map Ran.entry

/-- The books of a pass that took `waiting` away when `last` was the greatest id. -/
structure Passing (m : Moment) (waiting : Multiset Task) (last : Nat) (b : Books) : Prop where
  resumed : b.entries.filterMap Entry.resumed? + b.waiting.filter (·.wake.isDue m) =
    waiting.filter (·.wake.isDue m)
  kept : b.stored + b.waiting.filter (¬·.wake.isDue m) =
    waiting.filter (¬·.wake.isDue m) + b.ran.filterMap Ran.waiting?
  bounded : last ≤ b.lastTaskId ∧ b.lastTaskId ≤ Number.counterMax
  launched : b.lastTaskId < Number.counterMax →
    b.entries.filterMap Entry.launchedId? = ↑(List.range' (last + 1) (b.lastTaskId - last))

end Books

theorem Posting.passing {m : Moment} {waiting : Multiset Task} {last : Nat} {b b' : Books}
    (h : Posting m b b') (hb : b.Passing m waiting last) : b'.Passing m waiting last := by
  obtain ⟨hresumed, hkept, ⟨hlast, hmax⟩, hlaunched⟩ := hb
  cases h with
  | none => exact ⟨hresumed, hkept, ⟨hlast, hmax⟩, hlaunched⟩
  | launch origin actions =>
    have hle : b.lastTaskId ≤ Number.countUp b.lastTaskId 1 := Number.le_countUp 1 hmax
    refine ⟨?_, hkept, ⟨Nat.le_trans hlast hle, Number.countUp_le_max _ _⟩, ?_⟩
    · simpa [Books.entries, Multiset.filterMap_cons, Entry.resumed?] using hresumed
    · intro hlt
      have hnew : Number.countUp b.lastTaskId 1 = b.lastTaskId + 1 := Number.countUp_of_lt hlt
      have hids := hlaunched (Nat.lt_of_le_of_lt hle hlt)
      have hrange : List.range' (last + 1) (b.lastTaskId + 1 - last) =
          List.range' (last + 1) (b.lastTaskId - last) ++ [b.lastTaskId + 1] := by
        rw [Nat.sub_add_comm hlast, List.range'_concat]
        congr 2
        omega
      simp only [Books.entries, Multiset.cons_add, Multiset.filterMap_cons,
        Entry.launchedId?, hnew, hrange, coe_append_singleton]
      rw [← hids]
      rfl
  | resume t others hwaiting hdue =>
    refine ⟨?_, ?_, ⟨hlast, hmax⟩, ?_⟩
    · rw [← hresumed, hwaiting]
      simp [Books.entries, Entry.resumed?, hdue]
    · rw [← hkept, hwaiting]
      simp [hdue]
    · simpa [Books.entries, Multiset.filterMap_cons, Entry.launchedId?] using hlaunched
  | keep t others hwaiting hdue =>
    refine ⟨?_, ?_, ⟨hlast, hmax⟩, hlaunched⟩
    · rw [← hresumed, hwaiting]
      simp [Books.entries, hdue]
    · rw [← hkept, hwaiting]
      simp [hdue]
  | leave entry others rest hrunning hrest =>
    have hentries : Books.entries
        { b with
          running := others
          stored := ↑(Ran.mk entry rest).waiting?.toList + b.stored
          ran := ⟨entry, rest⟩ ::ₘ b.ran } = b.entries := by
      simp [Books.entries, hrunning]
    refine ⟨?_, ?_, ⟨hlast, hmax⟩, ?_⟩
    · rw [hentries, hresumed]
    · have hran : (⟨entry, rest⟩ ::ₘ b.ran).filterMap Ran.waiting? =
          ↑(Ran.mk entry rest).waiting?.toList + b.ran.filterMap Ran.waiting? := by
        rw [Multiset.filterMap_cons]
        cases (Ran.mk entry rest).waiting? <;> rfl
      rw [hran, add_left_comm, ← hkept, add_assoc]
    · rw [hentries]
      exact hlaunched

/-- What a pass over the waiting tasks of `before` made of them by its runs `ran`. What is said of
ids presumes that their counter has not run out. -/
structure KeepsTasks (m : Moment) (before after : State) (ran : List Ran) : Prop where
  /-- The due tasks went on, each in one run. -/
  resumed : (ran.filterMap (·.entry.resumed?)).Perm (before.pending.filter (·.wake.isDue m))
  /-- The other runs were those of new tasks, one for each id. -/
  launched : after.lastTaskId < Number.counterMax →
    (ran.filterMap (·.entry.launchedId?)).Perm
      (List.range' (before.lastTaskId + 1) (after.lastTaskId - before.lastTaskId))
  /-- What waits is what was not due, as it was, and what the suspended runs left. -/
  kept : after.pending.Perm (before.pending.filter (!·.wake.isDue m) ++ ran.filterMap Ran.waiting?)
  /-- The task of a run waits afterwards if and only if the run was suspended. -/
  waits_iff : after.lastTaskId < Number.counterMax →
    ∀ r ∈ ran, r.entry.id ∈ after.pending.map Task.id ↔ r.rest.isSome
  ordered : after.lastTaskId < Number.counterMax → after.pending.Pairwise fun t u => t.id < u.id
  id_le : ∀ t ∈ after.pending, t.id ≤ after.lastTaskId
  stack_ne_nil : ∀ t ∈ after.pending, t.stack ≠ []

theorem Ran.id_of_waiting? {r : Ran} {t : Task} (h : r.waiting? = some t) : t.id = r.entry.id := by
  obtain ⟨rest, -, rfl⟩ := Option.map_eq_some_iff.1 h
  rfl

theorem Ran.isSome_waiting? (r : Ran) : r.waiting?.isSome = r.rest.isSome := Option.isSome_map

theorem mergeSort_id_sorted (tasks : List Task) :
    (tasks.mergeSort fun t u => t.id ≤ u.id).Pairwise fun t u => t.id ≤ u.id := by
  have htrans : ∀ t u v : Task, decide (t.id ≤ u.id) → decide (u.id ≤ v.id) →
      decide (t.id ≤ v.id) := by
    simpa using fun t u v : Task => Nat.le_trans
  have htotal : ∀ t u : Task, decide (t.id ≤ u.id) || decide (u.id ≤ t.id) := by
    simpa using fun t u : Task => Nat.le_total t.id u.id
  exact (List.pairwise_mergeSort htrans htotal tasks).imp (by simp)

theorem pending_resumeDue_sorted (p : Program) (m : Moment) (s : State) :
    (resumeDue p m s).pending.Pairwise fun t u => t.id ≤ u.id := mergeSort_id_sorted _

section
variable {p : Program} {m : Moment} {before after : State} {ran : List Ran}

theorem passing_of_reaches (hbefore : WaitSoundly before.pending before.lastTaskId)
    (h : Reaches p m ⟨[.resume before.pending], 0, [], [], { before with pending := [] }⟩
      ⟨[], 0, [], ran, after⟩) :
    (Agenda.books ⟨[], 0, [], ran, after⟩).Passing m ↑before.pending before.lastTaskId := by
  apply h.books (fun _ _ hposting hb => hposting.passing hb) (by simp)
  refine ⟨?_, ?_, ⟨Nat.le_refl _, hbefore.bounded⟩, ?_⟩
  · simp [Agenda.books, Books.entries, List.filterMap_cons, Duty.entry?, Duty.waiting]
  · simp [Agenda.books, Duty.waiting]
  · simp [Agenda.books, Books.entries, List.filterMap_cons, Duty.entry?]

variable (hbefore : WaitSoundly before.pending before.lastTaskId)
  (hresumed : (ran.filterMap (·.entry.resumed?)).Perm (before.pending.filter (·.wake.isDue m)))
  (hlaunched : (ran.filterMap (·.entry.launchedId?)).Perm
    (List.range' (before.lastTaskId + 1) (after.lastTaskId - before.lastTaskId)))

include hresumed hlaunched in
/-- The ids of the runs of a pass and of what was not due are those that waited, and the new
ones. -/
theorem ids_perm :
    (ran.map (·.entry.id) ++ (before.pending.filter (!·.wake.isDue m)).map Task.id).Perm
      (before.pending.map Task.id ++
        List.range' (before.lastTaskId + 1) (after.lastTaskId - before.lastTaskId)) := by
  have hids : (ran.map (·.entry.id)).Perm
      ((ran.filterMap (·.entry.resumed?)).map Task.id ++ ran.filterMap (·.entry.launchedId?)) := by
    simpa [Function.comp_def] using map_id_eq_add ↑(ran.map Ran.entry)
  have hran := hids.trans ((hresumed.map Task.id).append hlaunched)
  have hwaited := (List.filter_append_perm (·.wake.isDue m) before.pending).map Task.id
  rw [List.map_append] at hwaited
  refine (hran.append_right _).trans (.trans ?_ (hwaited.append_right _))
  simp only [List.append_assoc]
  exact List.perm_append_comm.append_left _

include hbefore hresumed hlaunched in
/-- A task runs at most once in a pass, and none of those that are not due. -/
theorem nodup_ids (hlt : before.lastTaskId < Number.counterMax) :
    (ran.map (·.entry.id) ++ (before.pending.filter (!·.wake.isDue m)).map Task.id).Nodup := by
  rw [(ids_perm hresumed hlaunched).nodup_iff, List.nodup_append]
  refine ⟨hbefore.nodup hlt, List.nodup_range', ?_⟩
  rintro _ hwaited id hnew rfl
  obtain ⟨t, ht, rfl⟩ := List.mem_map.1 hwaited
  have hold : t.id ≤ before.lastTaskId := hbefore.id_le ht
  obtain ⟨hlast, -⟩ := List.mem_range'_1.1 hnew
  omega

theorem id_mem_pending_iff
    (hkept : after.pending.Perm
      (before.pending.filter (!·.wake.isDue m) ++ ran.filterMap Ran.waiting?))
    (hnodup : (ran.map (·.entry.id) ++ (before.pending.filter (!·.wake.isDue m)).map Task.id).Nodup)
    {r : Ran} (hr : r ∈ ran) : r.entry.id ∈ after.pending.map Task.id ↔ r.rest.isSome := by
  obtain ⟨hran, -, hdisjoint⟩ := List.nodup_append.1 hnodup
  rw [(hkept.map Task.id).mem_iff, List.map_append, List.mem_append, ← r.isSome_waiting?]
  constructor
  · rintro (hearlier | hsuspended)
    · exact absurd rfl (hdisjoint _ (List.mem_map_of_mem hr) _ hearlier)
    · obtain ⟨t, ht, hid⟩ := List.mem_map.1 hsuspended
      obtain ⟨r', hr', hwaiting⟩ := List.mem_filterMap.1 ht
      have hsame : r'.entry.id = r.entry.id := Ran.id_of_waiting? hwaiting ▸ hid
      obtain rfl : r' = r := List.inj_on_of_nodup_map hran hr' hr hsame
      simp [hwaiting]
  · intro hsuspended
    obtain ⟨t, ht⟩ := Option.isSome_iff_exists.1 hsuspended
    exact .inr (List.mem_map.2 ⟨t, List.mem_filterMap.2 ⟨r, hr, ht⟩, Ran.id_of_waiting? ht⟩)

end

theorem exists_keepsTasks (p : Program) (m : Moment) {s : State}
    (hs : WaitSoundly s.pending s.lastTaskId) :
    ∃ ran, Reaches p m ⟨[.look], 0, [], [], s⟩ ⟨[], 0, [], ran, resumeDue p m s⟩ ∧
      KeepsTasks m s (resumeDue p m s) ran := by
  obtain ⟨ran, h⟩ := reaches_pass (p := p) (m := m) [] [] s
  have hpassing := passing_of_reaches hs h
  have hafter : WaitSoundly (resumeDue p m s).pending (resumeDue p m s).lastTaskId :=
    waitSoundly_resumeDue hs
  have hresumed : (ran.filterMap (·.entry.resumed?)).Perm (s.pending.filter (·.wake.isDue m)) := by
    simpa [Agenda.books, Books.entries] using hpassing.resumed
  have hlaunched (hlt : (resumeDue p m s).lastTaskId < Number.counterMax) :
      (ran.filterMap (·.entry.launchedId?)).Perm
        (List.range' (s.lastTaskId + 1) ((resumeDue p m s).lastTaskId - s.lastTaskId)) := by
    simpa [Agenda.books, Books.entries] using hpassing.launched hlt
  have hkept : (resumeDue p m s).pending.Perm
      (s.pending.filter (!·.wake.isDue m) ++ ran.filterMap Ran.waiting?) := by
    simpa [Agenda.books] using hpassing.kept
  refine ⟨ran, .head h, hresumed, hlaunched, hkept, ?_, ?_, fun t ht => hafter.id_le ht,
    fun t ht => hafter.stack_ne_nil ht⟩
  · intro hlt r hr
    have hbegun : s.lastTaskId < Number.counterMax := Nat.lt_of_le_of_lt hpassing.bounded.1 hlt
    exact id_mem_pending_iff hkept (nodup_ids hs hresumed (hlaunched hlt) hbegun) hr
  · intro hlt
    have hnodup := hafter.nodup hlt
    rw [List.Nodup, List.pairwise_map] at hnodup
    exact hnodup.imp₂ (fun _ _ hne hle => Nat.lt_of_le_of_ne hle hne)
      (pending_resumeDue_sorted p m s)

/-- A frame of a session comes to look at the waiting tasks and makes a pass over them, in which it
loses no task, doubles none and goes on with none too early. -/
theorem Engine.update_keepsTasks {e : Engine} {s : Session} (he : e.Reachable)
    (hs : e.session = some s) (dt : Float) (w : World) :
    ∃ s' before after triggered ran, (e.update dt w).1.session = some s' ∧
      s'.pending = after.pending ∧ (e.update dt w).1.lastTaskId = after.lastTaskId ∧
      Reaches s.program s'.moment (.ofAdvance s dt (s.state e.lastTaskId e.faults e.random w))
        ⟨[.look], 0, [], triggered, before⟩ ∧
      Reaches s.program s'.moment ⟨[.look], 0, [], [], before⟩ ⟨[], 0, [], ran, after⟩ ∧
      KeepsTasks s'.moment before after ran := by
  have hwait : WaitSoundly s.pending e.lastTaskId := by
    simpa [Engine.waiting, hs] using he.waitSoundly
  let st := s.state e.lastTaskId e.faults e.random w
  obtain ⟨triggered, htriggers⟩ := reaches_beforeLook s dt st [.look]
  have hbefore : WaitSoundly (s.beforeLook dt st).pending (s.beforeLook dt st).lastTaskId :=
    waitSoundly_beforeLook (s := s) dt hwait
  obtain ⟨ran, hpass, hkeeps⟩ := exists_keepsTasks s.program (s.moment.after (frameTime dt)) hbefore
  refine ⟨(s.advance dt st).1, s.beforeLook dt st, (s.advance dt st).2, triggered, ran, ?_, rfl,
    ?_, htriggers, hpass, hkeeps⟩
  · simp [Engine.update, hs, Engine.resume, st]
  · simp [Engine.update, hs, Engine.resume, st]

/-- An engine in which a timer waits. -/
def waitingEngine : Engine :=
  ((Engine.ofSeed ⟨64, 0, 16⟩ 7).start
    ⟨[⟨1, 0, 0, [⟨(), "on_timer", .ofList [("seconds", "1")], none, none⟩,
        ⟨(), "wait", .ofList [("seconds", "2")], none, none⟩]⟩], []⟩ .empty).1

theorem waitingEngine_reachable : waitingEngine.Reachable := .start _ _ (.new _ _)

theorem update_waitingEngine :
    waitingEngine.Reachable ∧ ∃ s, waitingEngine.session = some s ∧
      ∃ s' before after triggered ran, (waitingEngine.update 1 .empty).1.session = some s' ∧
        s'.pending = after.pending ∧
        (waitingEngine.update 1 .empty).1.lastTaskId = after.lastTaskId ∧
        Reaches s.program s'.moment
          (.ofAdvance s 1
            (s.state waitingEngine.lastTaskId waitingEngine.faults waitingEngine.random .empty))
          ⟨[.look], 0, [], triggered, before⟩ ∧
        Reaches s.program s'.moment ⟨[.look], 0, [], [], before⟩ ⟨[], 0, [], ran, after⟩ ∧
        KeepsTasks s'.moment before after ran :=
  ⟨waitingEngine_reachable, _, rfl, Engine.update_keepsTasks waitingEngine_reachable rfl 1 .empty⟩

end BlockStudio.Script
