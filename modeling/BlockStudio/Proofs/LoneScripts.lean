import BlockStudio.Proofs.Edges
import BlockStudio.Proofs.ScoreMirror
import BlockStudio.Proofs.Transcripts

/-!
A script that runs alone: one list that starts at once, and functions. Frame by frame its task goes
on with one transcript, and each frame makes headway. Main statement: how often loops hand control
back does not change what a lone script computes, only in how many frames.
-/
namespace BlockStudio.Script

/-- A document with one list that starts at once and functions, none of which waits. -/
structure IsLone (d : Document) : Prop where
  start : ((Handler.ofDocument d).filterMap Handler.start?).length = 1
  others : ∀ h ∈ Handler.ofDocument d, h.trigger = .start ∨ ∃ name, h.trigger = .function name
  waitless : ∀ h ∈ Handler.ofDocument d, listWaits h.actions = false

/-- Nothing changes but the frame that events are marked with. -/
def Beat.IsIdle (b : Beat) : Prop :=
  ∀ w, ∃ frame, b.change w = { w with bus := { w.bus with frame } }

namespace IsLone
variable {d : Document}

theorem filterMap_eq_nil (hd : IsLone d) {α : Type} {f : Handler → Option α}
    (hf : ∀ h : Handler, h.trigger = .start ∨ (∃ name, h.trigger = .function name) → f h = none) :
    (Handler.ofDocument d).filterMap f = [] :=
  List.filterMap_eq_nil_iff.2 fun h hh => hf h (hd.others h hh)

theorem timers_eq (hd : IsLone d) : (Handler.ofDocument d).filterMap Handler.timer? = [] :=
  hd.filterMap_eq_nil fun h ht => by rcases ht with ht | ⟨name, ht⟩ <;> simp [Handler.timer?, ht]

theorem touches_eq (hd : IsLone d) : (Handler.ofDocument d).filterMap Handler.touch? = [] :=
  hd.filterMap_eq_nil fun h ht => by rcases ht with ht | ⟨name, ht⟩ <;> simp [Handler.touch?, ht]

theorem keys_eq (hd : IsLone d) : (Handler.ofDocument d).filterMap Handler.key? = [] :=
  hd.filterMap_eq_nil fun h ht => by rcases ht with ht | ⟨name, ht⟩ <;> simp [Handler.key?, ht]

theorem scores_eq (hd : IsLone d) : (Handler.ofDocument d).filterMap Handler.score? = [] :=
  hd.filterMap_eq_nil fun h ht => by rcases ht with ht | ⟨name, ht⟩ <;> simp [Handler.score?, ht]

theorem watchers_eq (hd : IsLone d) : (Handler.ofDocument d).filterMap Handler.watcher? = [] :=
  hd.filterMap_eq_nil fun h ht => by rcases ht with ht | ⟨name, ht⟩ <;> simp [Handler.watcher?, ht]

theorem waitless_of_start (hd : IsLone d) {e : String × List Action}
    (he : (Handler.ofDocument d).filterMap Handler.start? = [e]) : listWaits e.2 = false := by
  obtain ⟨h, hh, hstart⟩ := List.mem_filterMap.1 (he ▸ List.mem_singleton_self e)
  have hactions : h.actions = e.2 := by
    unfold Handler.start? at hstart
    split at hstart
    · exact congrArg Prod.snd (Option.some.inj hstart)
    · contradiction
  exact hactions ▸ hd.waitless h hh

theorem isPlain (hd : IsLone d) (limits : Limits) :
    (Program.ofHandlers limits (Handler.ofDocument d)).IsPlain where
  functions name body hname := by
    simp only [Program.ofHandlers, Table.get?_ofList] at hname
    obtain ⟨⟨name', body'⟩, hmem, hbody⟩ := List.mem_filterMap.1 (List.mem_of_getLast? hname)
    obtain ⟨h, hh, hfunction⟩ := List.mem_filterMap.1 hmem
    split at hbody
    · obtain rfl := Option.some.inj hbody
      have hactions : h.actions = body' := by
        unfold Handler.function? at hfunction
        split at hfunction
        · exact (Prod.mk.inj (Option.some.inj hfunction)).2
        · contradiction
      exact hactions ▸ hd.waitless h hh
    · contradiction
  watchers name := by
    rw [Program.ofHandlers, hd.watchers_eq]
    rfl

end IsLone

/-- A fault without the frame in which it happened. -/
def Fault.content (f : Fault) : String × ActionKind × String := (f.origin, f.action, f.message)

def Output.faultContent? (o : Output) (origin : String) : Option (String × ActionKind × String) :=
  o.fault?.map fun (action, message) => (origin, action, message)

theorem Output.map_content_faultAt? (o : Output) (m : Moment) (origin : String) :
    (o.faultAt? m origin).map Fault.content = o.faultContent? origin := by
  cases h : o.fault? <;> simp [faultAt?, faultContent?, h, Fault.content]

/-- How far a play has come with a transcript: the outputs so far are those before, and the task, if
it is not over, goes on with those after. -/
structure Performs (p : Program) (m : Moment) (origin : String) (c : State)
    (before after : List Output) (s : State) (rest : Option (Wake × Stack)) (st : State)
    (events : List EventContent) (faults : List Fault) : Prop where
  alike : s.Alike st
  stops : StopsIn p m origin c after s rest
  pending : ∃ id, st.pending = (taskOf id origin rest).toList
  events : events = before.flatMap (·.event?.toList)
  faults : faults.map Fault.content = before.flatMap fun o => (o.faultContent? origin).toList

section
variable {p : Program} {m : Moment} {origin : String}

theorem pending_foldl_put (os : List Output) (x : Unread) :
    (os.foldl (·.put m origin ·) x).pending = x.pending :=
  List.foldlRecOn os (motive := fun x' : Unread => x'.pending = x.pending) _ rfl fun _ h _ _ => h

theorem StopsIn.eq_nil {c s : State} {os : List Output} (h : StopsIn p m origin c os s none) :
    os = [] := by
  cases h
  rfl

theorem StopsIn.eq_end {c s : State} {os : List Output} (h : StopsIn p m origin c os s none) :
    s = c := by
  cases h
  rfl

/-- What a run leaves, once its task is kept. -/
theorem StopsIn.performs {c s' : State} {after before : List Output}
    {rest : Option (Wake × Stack)} {id : Nat} (h : StopsIn p m origin c after s' rest) (x : Unread)
    (pending : List Task) (hpending : pending = (taskOf id origin rest).toList) :
    Performs p m origin c before after s' rest
      { s'.withUnread (before.foldl (·.put m origin ·) x) with pending }
        (before.flatMap (·.event?.toList))
      (before.flatMap fun o => (o.faultAt? m origin).toList) where
  alike := rfl
  stops := h
  pending := ⟨id, hpending⟩
  events := rfl
  faults := by
    rw [List.map_flatMap]
    refine List.flatMap_congr fun o _ => ?_
    rw [← o.map_content_faultAt? m origin]
    cases o.faultAt? m origin <;> rfl

theorem Performs.append {m' : Moment} {c s s' st st' : State}
    {before before' after after' : List Output} {rest rest' : Option (Wake × Stack)}
    {events events' : List EventContent} {faults faults' : List Fault}
    (h : Performs p m origin c before after s rest st events faults)
    (h' : Performs p m' origin c before' after' s' rest' st' events' faults') :
    Performs p m' origin c (before ++ before') after' s' rest' st' (events ++ events')
      (faults ++ faults') where
  alike := h'.alike
  stops := h'.stops
  pending := h'.pending
  events := by rw [h.events, h'.events, List.flatMap_append]
  faults := by rw [List.map_append, h.faults, h'.faults, List.flatMap_append]

theorem performs_begin (hp : p.IsPlain) {actions : List Action} {st s c : State} {os : List Output}
    {as : List Agenda} {b : Agenda}
    (h : Course p .start ⟨[.start false [(origin, actions)]], 0, [], [], st⟩ as b)
    (hpending : st.pending = []) (halike : s.Alike st)
    (htranscript : Transcript p.unyielding origin [.begin actions] s os c) :
    ∃ before after s' rest, os = before ++ after ∧
      Performs p .start origin c before after s' rest b.state (Record.events p ⟨.start, as⟩)
        (Record.faults p ⟨.start, as⟩) := by
  let r : Setting := ⟨.launched st.takeTaskId.1 origin actions, [.start false []], 0, [], []⟩
  let x : Unread := st.takeTaskId.2.unread
  have hstate : st.takeTaskId.2 = s.withUnread x := halike.trans (.withUnread st x)
  have hsettled : settle [.begin actions] = [.begin actions] := rfl
  obtain ⟨before, after, s', rest, rfl, hpasses, hstops, -⟩ :=
    htranscript.passes (r := r) hp hsettled x
  let s₁ : State := s'.withUnread (before.foldl (·.put .start origin ·) x)
  have hfirst : Agenda.next p .start ⟨[.start false [(origin, actions)]], 0, [], [], st⟩ =
      r.agenda [.begin actions] (s.withUnread x) := by
    rw [← hstate]
    rfl
  have hlast : Passes p .start (r.left rest s₁) [] []
      ⟨[], 0, [], [⟨r.entry, rest⟩], s₁.keep st.takeTaskId.1 origin rest⟩ :=
    (Passes.refl _).silent (List.cons_ne_nil _ _) (by simp [r, Setting.left, Agenda.leave]) rfl rfl
  have hwhole := (hpasses.trans hlast).silent (List.cons_ne_nil _ _) (by simp) rfl hfirst
  obtain ⟨rfl, hevents, hfaults⟩ := hwhole.of_course rfl h
  have hnone : s₁.pending = [] := (pending_foldl_put before x).trans hpending
  have hkeep : s₁.keep st.takeTaskId.1 origin rest =
      { s₁ with pending := (taskOf st.takeTaskId.1 origin rest).toList } := by
    cases rest with
    | none => rw [taskOf, Option.map_none, Option.toList_none, ← hnone]; rfl
    | some rest => simp only [State.keep, hnone]; rfl
  refine ⟨before, after, s', rest, rfl, ?_⟩
  rw [hevents, hfaults, List.append_nil, List.append_nil, hkeep]
  exact hstops.performs x _ rfl

/-- Without bindings and score triggers a frame comes to the waiting tasks at once. -/
theorem passes_triggers {touches keys : Table Binding} (htouches : touches.entries = [])
    (hkeys : keys.entries = []) (st : State) :
    Passes p m ⟨[.start true [], .touch touches, .key keys, .look], 0, [], [], st⟩ [] []
      ⟨[.resume st.pending], 0, [], [], { st with pending := [] }⟩ := by
  have hrisen : ∀ {t : Table Binding}, t.entries = [] → ∀ label isActive,
      risen label isActive t = [] := by
    intro t ht label isActive
    rw [risen, ht]
    rfl
  have hlook : Passes p m ⟨[.look], 0, [], [], st⟩ [] [] ⟨[.resume st.pending], 0, [], [],
      { st with pending := [] }⟩ :=
    (Passes.refl _).silent (List.cons_ne_nil _ _) (by simp) rfl rfl
  have hkey : Passes p m ⟨[.key keys, .look], 0, [], [], st⟩ [] [] _ :=
    (hlook.silent (List.cons_ne_nil _ _) (by simp) rfl rfl).silent
      (a := ⟨[.key keys, .look], 0, [], [], st⟩) (b := ⟨[.start true [], .look], 0, [], [], st⟩)
      (List.cons_ne_nil _ _) (by simp) rfl
      (by simp only [Agenda.next, hrisen hkeys])
  have htouch : Passes p m ⟨[.touch touches, .key keys, .look], 0, [], [], st⟩ [] [] _ :=
    (hkey.silent (List.cons_ne_nil _ _) (by simp) rfl rfl).silent
      (a := ⟨[.touch touches, .key keys, .look], 0, [], [], st⟩)
      (b := ⟨[.start true [], .key keys, .look], 0, [], [], st⟩)
        (List.cons_ne_nil _ _) (by simp) rfl
      (by simp only [Agenda.next, hrisen htouches])
  exact htouch.silent (List.cons_ne_nil _ _) (by simp) rfl rfl

/-- A frame of a session with a lone script goes on with its transcript, and makes headway unless
the task is over. A task that hands control back is the only one, and due in the next frame. -/
theorem performs_frame (hp : p.IsPlain) {m' : Moment} (hframe : m'.frame = Number.countUp m.frame 1)
    {touches keys : Table Binding} (htouches : touches.entries = []) (hkeys : keys.entries = [])
    {st s c : State} {before after : List Output} {rest : Option (Wake × Stack)}
    {events : List EventContent} {faults : List Fault} {as : List Agenda} {b : Agenda}
    (h : Course p m' ⟨[.start true [], .touch touches, .key keys, .look], 0, [], [], st⟩ as b)
    (hst : Performs p m origin c before after s rest st events faults) :
    ∃ before' after' s' rest', after = before' ++ after' ∧
      Performs p m' origin c before' after' s' rest' b.state (Record.events p ⟨m', as⟩)
        (Record.faults p ⟨m', as⟩) ∧
      (rest'.isSome = true → before' ≠ []) := by
  obtain ⟨halike, hstops, ⟨id, hpending⟩, -, -⟩ := hst
  have htriggers : Passes p m' _ [] [] _ := passes_triggers htouches hkeys st
  cases hstops with
  | finished =>
    have hempty : st.pending = [] := hpending
    rw [hempty] at htriggers
    have hlast : Passes p m' ⟨[.resume []], 0, [], [], { st with pending := [] }⟩ [] []
        ⟨[], 0, [], [], { st with pending := [] }⟩ :=
      (Passes.refl _).silent (List.cons_ne_nil _ _) (by simp) rfl (by simp [Agenda.next])
    obtain ⟨rfl, hevents, hfaults⟩ := (htriggers.trans hlast).of_course rfl h
    refine ⟨[], [], s, none, rfl, ?_, by simp⟩
    exact ⟨halike.trans (.withUnread st { st.unread with pending := [] }), .finished,
      ⟨id, rfl⟩, hevents, by rw [hfaults]; rfl⟩
  | @suspended _ _ stack hyields htranscript =>
    let t : Task := ⟨id, origin, stack, .atFrame (Number.countUp m.frame 1)⟩
    have hsingle : st.pending = [t] := hpending
    have hdue : t.wake.isDue m' = true := by simp [t, Wake.isDue, hframe]
    rw [hsingle] at htriggers
    let r : Setting := ⟨.resumed t, [.resume []], 0, [], []⟩
    let x : Unread := { st.unread with pending := [] }
    have hstate : ({ st with pending := [] } : State) = s.withUnread x :=
      halike.trans (.withUnread st x)
    have hresume : Agenda.next p m' ⟨[.resume [t]], 0, [], [], { st with pending := [] }⟩ =
        r.agenda stack (s.withUnread x) := by
      rw [← hstate]
      simp only [Agenda.next, if_pos hdue]
      rfl
    obtain ⟨before', after', s', rest', rfl, hpasses, hstops, hheadway⟩ :=
      htranscript.passes (r := r) hp rfl x
    let s₁ : State := s'.withUnread (before'.foldl (·.put m' origin ·) x)
    have hnone : s₁.pending = [] := pending_foldl_put before' x
    have hlast : Passes p m' (r.left rest' s₁) [] []
        ⟨[], 0, [], [⟨r.entry, rest'⟩],
          { s₁ with pending := (taskOf id origin rest').toList }⟩ := by
      refine (Passes.refl _).silent (List.cons_ne_nil _ _)
        (by simp [r, Setting.left, Agenda.leave]) rfl ?_
      cases rest' <;>
        simp [r, t, Setting.left, Agenda.leave, Agenda.next, hnone, taskOf, Ran.waiting?,
          Entry.id, Entry.origin]
    have hgoOn := (hpasses.trans hlast).silent (List.cons_ne_nil _ _) (by simp) rfl hresume
    obtain ⟨rfl, hevents, hfaults⟩ := (htriggers.trans hgoOn).of_course rfl h
    refine ⟨before', after', s', rest', rfl, ?_, hheadway hyields⟩
    rw [hevents, hfaults, List.append_nil, List.append_nil]
    exact hstops.performs x _ rfl

end

/-- A frame in which nothing else happens begins with what the last one left. -/
theorem Beat.IsIdle.refreshed {b : Beat} (hb : b.IsIdle) {e : Engine} {w : World}
    (h : (e.state w).MirrorsScore) (dt : Float) :
    (e.state w).Alike ((e.state (b.change w)).ageOverlay dt).mirrorScore := by
  obtain ⟨frame, hchange⟩ := hb w
  have hmirrors : ((e.state (b.change w)).ageOverlay dt).variableValues.get? scoreVariable =
      some (b.change w).score := by
    rw [hchange]
    exact h
  have hsame : ((e.state (b.change w)).ageOverlay dt).mirrorScore =
      (e.state (b.change w)).ageOverlay dt := by
    have hscore : ((e.state (b.change w)).ageOverlay dt).world.score = (b.change w).score := rfl
    rw [State.mirrorScore, hscore, Table.insert_of_get? hmirrors]
  rw [hsame, hchange]
  exact .withUnread _ ((e.state { w with bus := { w.bus with frame } }).ageOverlay dt).unread

namespace Engine.Recorded
variable {e : Engine} {d : Document} {w : World} {beats : List Beat} {records : List Record}

theorem ofBeat_eq (h : e.Recorded d w beats records) (hd : IsLone d) {session : Session}
    (hs : (e.play d w beats).1.session = some session) (b : Beat) :
    session.touches.entries = [] ∧ session.keys.entries = [] ∧
      Agenda.ofBeat (e.play d w beats) b session =
        ⟨[.start true [], .touch session.touches, .key session.keys, .look], 0, [], [],
          (((e.play d w beats).1.state (b.change (e.play d w beats).2)).ageOverlay
            (frameTime b.seconds)).mirrorScore⟩ := by
  obtain ⟨_, r, hs', -, hremembers⟩ := h.exists_remembers
  obtain rfl := Option.some.inj (hs.symm.trans hs')
  have hscores : session.scores = [] := by simpa [hd.scores_eq] using hremembers.scores
  refine ⟨by rw [hremembers.touches, hd.touches_eq]; rfl,
    by rw [hremembers.keys, hd.keys_eq]; rfl, ?_⟩
  rw [state_of_session hs]
  simp only [Agenda.ofBeat, Agenda.ofAdvance, Agenda.ofTriggers, hscores, fireScores]

/-- A frame in which nothing else happens takes a lone script some way further with its
transcript. -/
theorem performs_beat (hearlier : e.Recorded d w beats records) (hd : IsLone d)
    {b : Beat} (hb : b.IsIdle) {session : Session}
    (hs : (e.play d w beats).1.session = some session) {as : List Agenda} {a : Agenda}
    (h : Course (e.programOf d) (session.moment.after (frameTime b.seconds))
      (Agenda.ofBeat (e.play d w beats) b session) as a)
    {origin : String} {c s : State} {before after : List Output} {rest : Option (Wake × Stack)}
    {events : List EventContent} {faults : List Fault}
    (hst : Performs (e.programOf d) session.moment origin c before after s rest
      ((e.play d w beats).1.state (e.play d w beats).2) events faults) :
    ∃ before' after' s' rest', after = before' ++ after' ∧
      Performs (e.programOf d)
        (session.moment.after (frameTime b.seconds)) origin c before' after' s' rest'
        ((e.play d w (beats ++ [b])).1.state (e.play d w (beats ++ [b])).2)
        (Record.events (e.programOf d) ⟨session.moment.after (frameTime b.seconds), as⟩)
        (Record.faults (e.programOf d) ⟨session.moment.after (frameTime b.seconds), as⟩) ∧
      (rest'.isSome = true → before' ≠ []) := by
  obtain ⟨htouches, hkeys, hagenda⟩ := hearlier.ofBeat_eq hd hs b
  have hend := state_of_course_beat hs h
  rw [hagenda] at h
  rw [← hend]
  exact performs_frame (hd.isPlain e.limits) rfl htouches hkeys h
    { hst with
      alike := hst.alike.trans (hb.refreshed hearlier.mirrorsScore.2 _)
      pending := hst.pending }

/-- A play of a lone script that nothing else happens in has come some way with the transcript, a
step at least for each frame until its task is over. A task that waits after a frame waited before
it too, so the frame took a step at least. -/
theorem exists_performs (h : e.Recorded d w beats records) (hd : IsLone d)
    (hidle : ∀ b ∈ beats, b.IsIdle) {origin : String} {actions : List Action}
    (hstart : (Handler.ofDocument d).filterMap Handler.start? = [(origin, actions)])
    {s c : State} {os : List Output}
    (halike : s.Alike (Agenda.ofBegin d e.lastTaskId e.random w).state)
    (htranscript : Transcript (e.programOf d).unyielding origin [.begin actions] s os c) :
    ∃ session before after s' rest, (e.play d w beats).1.session = some session ∧
      os = before ++ after ∧
      Performs (e.programOf d) session.moment origin c before after s' rest
        ((e.play d w beats).1.state (e.play d w beats).2)
          (records.flatMap (Record.events (e.programOf d)))
        (records.flatMap (Record.faults (e.programOf d))) ∧
      (rest.isSome = true → beats.length ≤ before.length) := by
  induction h with
  | @start as b h =>
    have hend := state_of_course_begin h
    have hpending : (Agenda.ofBegin d e.lastTaskId e.random w).state.pending = [] := by
      simp only [Agenda.ofBegin, hd.timers_eq]
      rfl
    have hagenda : Agenda.ofBegin d e.lastTaskId e.random w =
        ⟨[.start false [(origin, actions)]], 0, [], [],
          (Agenda.ofBegin d e.lastTaskId e.random w).state⟩ := by
      simp only [Agenda.ofBegin, hstart]
    rw [hagenda] at h
    obtain ⟨before, after, s', rest, rfl, hperforms⟩ :=
      performs_begin (hd.isPlain e.limits) h hpending halike htranscript
    rw [hend] at hperforms
    refine ⟨_, before, after, s', rest, rfl, rfl, ?_, fun _ => Nat.zero_le _⟩
    rw [List.flatMap_singleton, List.flatMap_singleton]
    exact hperforms
  | @update beats records as b' session b hearlier hs h ih =>
    obtain ⟨hbeats, hb⟩ := List.forall_mem_append.1 hidle
    obtain ⟨session', before, after, s', rest, hs', rfl, hperforms, hleast⟩ := ih hbeats
    obtain rfl := Option.some.inj (hs.symm.trans hs')
    obtain ⟨before', after', s₁, rest', rfl, hframe, hheadway⟩ :=
      hearlier.performs_beat hd (hb b (List.mem_singleton_self b)) hs h hperforms
    have hsession := (session_beat hs b).1
    rw [← play_concat] at hsession
    refine ⟨_, before ++ before', after', s₁, rest', hsession, (List.append_assoc ..).symm, ?_, ?_⟩
    · rw [List.flatMap_append, List.flatMap_append, List.flatMap_singleton, List.flatMap_singleton]
      exact hperforms.append hframe
    · intro hsome
      have hbefore' : before' ≠ [] := hheadway hsome
      have hwaits : rest.isSome = true := by
        cases rest with
        | none => exact absurd (List.append_eq_nil_iff.1 hperforms.stops.eq_nil).1 hbefore'
        | some _ => rfl
      have hmore : 0 < before'.length := List.length_pos_of_ne_nil hbefore'
      have hsofar := hleast hwaits
      simp only [List.length_append, List.length_singleton]
      omega

theorem bus_ofBegin (d : Document) (lastTaskId : Nat) (random : Random) (w : World) :
    (Agenda.ofBegin d lastTaskId random w).state.world.bus = w.bus :=
  List.foldlRecOn _ State.addTimer
    (motive := fun s : State => s.world.bus = w.bus) rfl fun _ h _ _ => h

/-- Where nothing else happens, the game has the events that the scripts emitted. -/
theorem contents_eq (h : e.Recorded d w beats records) (hidle : ∀ b ∈ beats, b.IsIdle) :
    (e.play d w beats).2.bus.contents =
      (records.flatMap (Record.events (e.programOf d))).foldl .push w.bus.contents := by
  induction h with
  | start h =>
    have hlog := h.logs_eq.1
    rw [state_of_course_begin h, bus_ofBegin] at hlog
    rw [List.flatMap_singleton, ← EventBus.contents_foldl_emit, ← hlog]
    rfl
  | @update beats records as c s b _ hs h ih =>
    obtain ⟨hbeats, hb⟩ := List.forall_mem_append.1 hidle
    obtain ⟨frame, hchange⟩ := hb b (List.mem_singleton_self b) (e.play d w beats).2
    have hbus : (Agenda.ofBeat (e.play d w beats) b s).state.world.bus =
        { (e.play d w beats).2.bus with frame } := by
      change (b.change (e.play d w beats).2).bus = _
      rw [hchange]
    have hlog := h.logs_eq.1
    rw [state_of_course_beat hs h, hbus] at hlog
    have hcontents := congrArg EventBus.contents hlog
    rw [EventBus.contents_foldl_emit] at hcontents
    rw [List.flatMap_append, List.flatMap_singleton, List.foldl_append, ← ih hbeats]
    exact hcontents

end Engine.Recorded

namespace Performs
variable {p : Program} {m : Moment} {origin : String} {c s : State} {before after : List Output}
  {rest : Option (Wake × Stack)} {e : Engine} {w : World} {events : List EventContent}
    {faults : List Fault}

theorem pendingCount (h : Performs p m origin c before after s rest (e.state w) events faults)
    {session : Session} (hs : e.session = some session) : e.pendingCount = 0 ↔ rest = none := by
  obtain ⟨id, hpending⟩ := h.pending
  rw [Engine.pendingCount_eq hs w, hpending]
  cases rest <;> simp [taskOf]

theorem at_end (h : Performs p m origin c before after s rest (e.state w) events faults)
    {session : Session} (hs : e.session = some session) (hcount : e.pendingCount = 0) :
    rest = none ∧ after = [] ∧ s = c := by
  obtain rfl := (h.pendingCount hs).1 hcount
  exact ⟨rfl, h.stops.eq_nil, h.stops.eq_end⟩

/-- After as many frames as the transcript has steps the task is over. -/
theorem pendingCount_eq_zero
    (h : Performs p m origin c before after s rest (e.state w) events faults) {session : Session}
    (hs : e.session = some session) {n : Nat} (hleast : rest.isSome = true → n ≤ before.length)
    (hn : (before ++ after).length < n) : e.pendingCount = 0 := by
  rw [h.pendingCount hs]
  cases rest with
  | none => rfl
  | some rest =>
    have hbefore := hleast rfl
    rw [List.length_append] at hn
    omega

end Performs

/-- Two plays that computed the same. Clocks, frames and the message on the screen may differ. -/
structure SameOutcome (p p' : Program) (r r' : Engine × World)
    (records records' : List Record) : Prop where
  variableValues : r.1.variableValues = r'.1.variableValues
  random : r.1.random = r'.1.random
  world : { r.2 with bus := .empty } = { r'.2 with bus := .empty }
  emitted : records.flatMap (Record.events p) = records'.flatMap (Record.events p')
  recorded : (records.flatMap (Record.faults p)).map Fault.content =
    (records'.flatMap (Record.faults p')).map Fault.content
  eventLog : r.2.bus.contents = r'.2.bus.contents
  faultLog : r.1.faults.map Fault.content = r'.1.faults.map Fault.content

/-- How often loops hand control back does not change what a lone script computes. Two engines with
the same limits but for this one, and the same random source, play a document with one list that
starts at once, functions and no waits, in the same game, where nothing else happens between the
frames. After finitely many frames no task waits in either, and then the outcomes are the same,
whatever the frames took. -/
theorem Engine.play_lone_script {e e' : Engine}
    (hceiling : e.limits.loopCeiling = e'.limits.loopCeiling)
    (hdepth : e.limits.maxCallDepth = e'.limits.maxCallDepth) (hrandom : e.random = e'.random)
    {d : Document} (hd : IsLone d) (w : World) :
    ∃ n, ∀ beats beats' : List Beat, (∀ b ∈ beats, b.IsIdle) → (∀ b ∈ beats', b.IsIdle) →
      (n ≤ beats.length → (e.play d w beats).1.pendingCount = 0) ∧
      (n ≤ beats'.length → (e'.play d w beats').1.pendingCount = 0) ∧
      ((e.play d w beats).1.pendingCount = 0 → (e'.play d w beats').1.pendingCount = 0 →
        ∃ records records', e.Recorded d w beats records ∧ e'.Recorded d w beats' records' ∧
          SameOutcome (e.programOf d) (e'.programOf d) (e.play d w beats)
            (e'.play d w beats') records records') := by
  obtain ⟨⟨origin, actions⟩, hstart⟩ := List.length_eq_one_iff.1 hd.start
  let s : State := (Agenda.ofBegin d e.lastTaskId e.random w).state
  have hprogram : (e.programOf d).unyielding = (e'.programOf d).unyielding := by
    simp only [Program.unyielding, Program.ofHandlers, hceiling, hdepth]
  have halike' : s.Alike (Agenda.ofBegin d e'.lastTaskId e'.random w).state := by
    simp only [s, Agenda.ofBegin, hd.timers_eq, hrandom]
    rfl
  obtain ⟨os, c, htranscript⟩ :
      ∃ os c, Transcript (e.programOf d).unyielding origin [.begin actions] s os c :=
    exists_transcript (hd.isPlain _) rfl s
      (List.forall_mem_singleton.2 (hd.waitless_of_start hstart))
  refine ⟨os.length + 1, fun beats beats' hidle hidle' => ?_⟩
  obtain ⟨records, h⟩ := e.exists_recorded d w beats
  obtain ⟨records', h'⟩ := e'.exists_recorded d w beats'
  obtain ⟨session, before, after, s₁, rest, hs, hos, hperforms, hleast⟩ :=
    h.exists_performs hd hidle hstart (.refl s) htranscript
  obtain ⟨session', before', after', s₁', rest', hs', hos', hperforms', hleast'⟩ :=
    h'.exists_performs hd hidle' hstart halike' (hprogram ▸ htranscript)
  refine ⟨?_, ?_, ?_⟩
  · exact fun hlength => hperforms.pendingCount_eq_zero hs hleast (hos ▸ hlength)
  · exact fun hlength => hperforms'.pendingCount_eq_zero hs' hleast' (hos' ▸ hlength)
  · intro hcount hcount'
    obtain ⟨rfl, rfl, rfl⟩ := hperforms.at_end hs hcount
    obtain ⟨rfl, rfl, rfl⟩ := hperforms'.at_end hs' hcount'
    rw [List.append_nil] at hos hos'
    subst hos hos'
    have hend := hperforms.alike.symm.trans hperforms'.alike
    have hemitted : records.flatMap (Record.events (e.programOf d)) =
        records'.flatMap (Record.events (e'.programOf d)) :=
      hperforms.events.trans hperforms'.events.symm
    have hrecorded : (records.flatMap (Record.faults (e.programOf d))).map Fault.content =
        (records'.flatMap (Record.faults (e'.programOf d))).map Fault.content :=
      hperforms.faults.trans hperforms'.faults.symm
    exact ⟨records, records', h, h', {
      variableValues := hend.variableValues_eq.symm
      random := hend.random_eq.symm
      world := hend.world_eq.symm
      emitted := hemitted
      recorded := hrecorded
      eventLog := by rw [h.contents_eq hidle, h'.contents_eq hidle', hemitted]
      faultLog := by
        rw [h.faults_eq, h'.faults_eq, BoundedLog.map_foldl_push,
          BoundedLog.map_foldl_push, hrecorded] }⟩

/-- A document that starts with a loop around a call of a function. -/
def loopingDocument : Document :=
  ⟨[⟨1, 0, 0, [⟨(), "on_start", .empty, none, none⟩,
      ⟨(), "repeat_n", .ofList [("times", "5")],
        some [⟨(), "call_func", .ofList [("name", "f")], none, none⟩], none⟩]⟩,
        ⟨2, 0, 0, [⟨(), "define_func", .ofList [("name", "f")], none, none⟩,
        ⟨(), "add_score", .ofList [("amount", "1")], none, none⟩,
        ⟨(), "show_message", .ofList [("text", "round")], none, none⟩]⟩], []⟩

theorem isLone_loopingDocument : IsLone loopingDocument where
  start := by decide +kernel
  others h hh := by
    have htriggers : (Handler.ofDocument loopingDocument).map Handler.trigger =
        [.start, .function "f"] := by
      decide +kernel
    have hmem : h.trigger ∈ [Trigger.start, .function "f"] := htriggers ▸ List.mem_map_of_mem hh
    exact (List.mem_pair.1 hmem).imp_right fun hfunction => ⟨"f", hfunction⟩
  waitless h hh := by
    have hwaits : (Handler.ofDocument loopingDocument).all
        (fun h => !listWaits h.actions) = true := by
      decide +kernel
    simpa using List.all_eq_true.1 hwaits h hh

/-- Loops hand control back before every round. -/
def eagerEngine : Engine := .ofSeed ⟨64, 1, 16⟩ 7

/-- Loops hand control back before every third round. -/
def patientEngine : Engine := .ofSeed ⟨64, 3, 16⟩ 7

theorem play_loopingDocument :
    IsLone loopingDocument ∧ ∃ beats : List Beat, (∀ b ∈ beats, b.IsIdle) ∧
      (eagerEngine.play loopingDocument .empty beats).1.pendingCount = 0 ∧
      (patientEngine.play loopingDocument .empty beats).1.pendingCount = 0 ∧
      ∃ records records', eagerEngine.Recorded loopingDocument .empty beats records ∧
        patientEngine.Recorded loopingDocument .empty beats records' ∧
        SameOutcome (eagerEngine.programOf loopingDocument)
          (patientEngine.programOf loopingDocument)
          (eagerEngine.play loopingDocument .empty beats)
            (patientEngine.play loopingDocument .empty beats)
          records records' := by
  obtain ⟨n, hplays⟩ := @Engine.play_lone_script eagerEngine patientEngine rfl rfl rfl _
    isLone_loopingDocument .empty
  have hidle : ∀ b ∈ List.replicate n (⟨id, 1⟩ : Beat), b.IsIdle := by
    rintro b hb w
    obtain rfl := List.eq_of_mem_replicate hb
    exact ⟨w.bus.frame, rfl⟩
  obtain ⟨hover, hover', hsame⟩ := hplays _ _ hidle hidle
  have hlength : n ≤ (List.replicate n (⟨id, 1⟩ : Beat)).length := by rw [List.length_replicate]
  exact ⟨isLone_loopingDocument, _, hidle, hover hlength, hover' hlength,
    hsame (hover hlength) (hover' hlength)⟩

end BlockStudio.Script
