import BlockStudio.Proofs.Announcements
import BlockStudio.Proofs.Bindings
import Mathlib.Data.List.Chain

/-!
Which lists touches and keys fire, and when. The work of a frame falls into phases: score triggers,
touches, keys and the waiting tasks. Main statement: in a phase exactly the lists fire whose object
or key has become active since the frame before; which ones is settled when the phase begins, and
each is reported once and then started once.
-/
namespace BlockStudio.Script

namespace Record

/-- The step that decides which touches fire, if there is one. -/
def atTouches? (r : Record) : Option Agenda := r.agendas.find? (·.looksAtTouches)

def atKeys? (r : Record) : Option Agenda := r.agendas.find? (·.looksAtKeys)

/-- Whether an object is there and overlaps the player when the touches are decided. -/
def touches (r : Record) (object : String) : Bool :=
  r.atTouches?.any (·.state.world.touchesPlayer object)

/-- Whether a key is held when the keys are decided. -/
def holds (r : Record) (key : String) : Bool := r.atKeys?.any (·.state.world.isKeyDown key)

/-- The phases of the work of a frame: score triggers, the touches that are new since the frame
before, the keys that are new, and the waiting tasks. -/
structure Phases (hs : List Handler) (before r : Record) (scoring : List Agenda)
    (atTouches : Agenda) (touching : List Agenda) (atKeys : Agenda)
    (keying resuming : List Agenda) : Prop where
  agendas_eq : r.agendas = scoring ++ atTouches :: touching ++ atKeys :: keying ++ resuming
  atTouches_eq : r.atTouches? = some atTouches
  atKeys_eq : r.atKeys? = some atKeys
  scores : ∀ e ∈ announcements scoring, ∃ h ∈ hs, h.score?.isSome = true ∧ e = h.labelled
  touches : announcements touching =
    onsets (Trigger.label ∘ .touch) before.touches r.touches (hs.filterMap Handler.touch?)
  keys : announcements keying = onsets (Trigger.label ∘ .key) before.holds r.holds
    (hs.filterMap Handler.key?)
  others : announcements resuming = []

/-- The work of a frame, after that of the frame before, fires the touches and keys that are new.
Each list that it fires is reported by one event of its own and then begins to run; no other trigger
is reported, and nothing else begins to run but watchers. -/
structure FiresOnEdges (p : Program) (hs : List Handler) (before r : Record) : Prop where
  phases : ∃ scoring atTouches touching atKeys keying resuming,
    Phases hs before r scoring atTouches touching atKeys keying resuming
  fired : ∀ a ∈ r.agendas, ∀ label actions, a.announced? = some (label, actions) →
    a.emitted p r.moment = [.triggerFired label] ∧
      ∃ id duties, (a.next p r.moment).duties =
        .run (.launched id label actions) [.begin actions] :: duties
  reported : ∀ a ∈ r.agendas, ∀ label, .triggerFired label ∈ a.emitted p r.moment →
    ∃ actions, a.announced? = some (label, actions)
  begun : ∀ a ∈ r.agendas, ∀ id origin actions stack,
    .run (.launched id origin actions) stack ∈ (a.next p r.moment).duties →
      (∃ stack', .run (.launched id origin actions) stack' ∈ a.duties) ∨
        a.announced? = some (origin, actions) ∨
        ∃ name lists, a.duties.head? = some (.watch name (actions :: lists)) ∧
          origin = Trigger.changeLabel name

end Record

def ScoreTrigger.armed (t : ScoreTrigger) : ScoreTrigger := { t with fired := false }

theorem armed_fireScores (score : Float) (ts : List ScoreTrigger) :
    (fireScores score ts).2.map ScoreTrigger.armed = ts.map ScoreTrigger.armed := by
  induction ts with
  | nil => rfl
  | cons t ts ih =>
    simp only [fireScores]
    split <;> simp [ih, ScoreTrigger.armed]

theorem mem_fireScores {score : Float} {ts : List ScoreTrigger} {e : String × List Action}
    (h : e ∈ (fireScores score ts).1) :
    ∃ t ∈ ts, e = ((Trigger.score t.comparison t.threshold).label, t.actions) := by
  induction ts with
  | nil => simp [fireScores] at h
  | cons t ts ih =>
    simp only [fireScores] at h
    have hlater : e ∈ (fireScores score ts).1 →
        ∃ u ∈ t :: ts, e = ((Trigger.score u.comparison u.threshold).label, u.actions) := by
      intro hmem
      obtain ⟨u, hu, he⟩ := ih hmem
      exact ⟨u, List.mem_cons_of_mem _ hu, he⟩
    split at h
    · rcases List.mem_cons.1 h with rfl | hmem
      · exact ⟨t, List.mem_cons_self, rfl⟩
      · exact hlater hmem
    · exact hlater h

theorem Handler.labelled_of_score? {h : Handler} {t : ScoreTrigger} (ht : h.score? = some t) :
    h.labelled = ((Trigger.score t.comparison t.threshold).label, t.actions) := by
  unfold score? at ht
  split at ht
  · rename_i htrigger
    obtain rfl := Option.some.inj ht
    simp only [labelled, htrigger]
  · contradiction

theorem Handler.armed_of_score? {h : Handler} {t : ScoreTrigger} (ht : h.score? = some t) :
    t.armed = t := by
  unfold score? at ht
  split at ht
  · obtain rfl := Option.some.inj ht
    rfl
  · contradiction

/-- What a session remembers of the frame before: its bindings are those of the handlers as they
were last decided. -/
structure Session.Remembers (s : Session) (hs : List Handler) (r : Record) : Prop where
  touches : s.touches = bindingsSeen (hs.filterMap Handler.touch?) r.touches
  keys : s.keys = bindingsSeen (hs.filterMap Handler.key?) r.holds
  scores : s.scores.map ScoreTrigger.armed = hs.filterMap Handler.score?

theorem Session.Remembers.mem_fireScores {s : Session} {hs : List Handler} {r : Record}
    (h : s.Remembers hs r) {score : Float} {e : String × List Action}
    (he : e ∈ (fireScores score s.scores).1) :
    ∃ h ∈ hs, h.score?.isSome = true ∧ e = h.labelled := by
  obtain ⟨t, ht, rfl⟩ := Script.mem_fireScores he
  have hmem : t.armed ∈ hs.filterMap Handler.score? := h.scores ▸ List.mem_map_of_mem ht
  obtain ⟨handler, hhandler, hscore⟩ := List.mem_filterMap.1 hmem
  exact ⟨handler, hhandler, by rw [hscore]; rfl, (Handler.labelled_of_score? hscore).symm⟩

/-- The work of a frame taken apart: each phase is done before the next begins. -/
structure Split (s : Session) (dt : Float) (st : State) (scoring : List Agenda) (atTouches : Agenda)
    (touching : List Agenda) (atKeys : Agenda) (keying resuming : List Agenda) : Prop where
  scores : announcements scoring =
    (fireScores (st.ageOverlay (frameTime dt)).mirrorScore.world.score s.scores).1
  touches : announcements touching =
    risen (Trigger.label ∘ .touch) (s.beforeTouches dt st).world.touchesPlayer s.touches
  keys : announcements keying =
    risen (Trigger.label ∘ .key) (s.beforeKeys dt st).world.isKeyDown s.keys
  others : announcements resuming = []
  atTouches_duties : atTouches.duties = [.touch s.touches, .key s.keys, .look]
  atTouches_state : atTouches.state = s.beforeTouches dt st
  atKeys_duties : atKeys.duties = [.key s.keys, .look]
  atKeys_state : atKeys.state = s.beforeKeys dt st
  decided : ∀ b ∈ scoring ++ touching, b.looksAtTouches = false ∧ b.looksAtKeys = false

/-- The course of a frame is cut three times: after the score triggers, after the touches and after
the keys. -/
theorem exists_split (s : Session) (dt : Float) (st : State) {as : List Agenda} {c : Agenda}
    (h : Course s.program (s.moment.after (frameTime dt)) (Agenda.ofAdvance s dt st) as c) :
    ∃ scoring atTouches touching atKeys keying resuming,
      as = scoring ++ atTouches :: touching ++ atKeys :: keying ++ resuming ∧
        Split s dt st scoring atTouches touching atKeys keying resuming := by
  let start := (st.ageOverlay (frameTime dt)).mirrorScore
  let fired := (fireScores start.world.score s.scores).1
  obtain ⟨ran₁, hreach₁⟩ :=
    reaches_fireAll (p := s.program) (m := s.moment.after (frameTime dt)) fired [] [] [] start
  obtain ⟨as₁, _, rfl, has₁, hrest₁⟩ := Course.split (a := ⟨[.start true fired], 0, [], [], start⟩)
    [.touch s.touches, .key s.keys, .look] h hreach₁ rfl
  obtain ⟨ran₂, hreach₂⟩ :=
    reaches_touch (p := s.program) (m := s.moment.after (frameTime dt)) s.touches [] [] ran₁
      (s.beforeTouches dt st)
  obtain ⟨as₂, _, rfl, has₂, hrest₂⟩ :=
    Course.split (a := ⟨[.touch s.touches], 0, [], ran₁, s.beforeTouches dt st⟩) [.key s.keys,
      .look] hrest₁ hreach₂ rfl
  obtain ⟨ran₃, hreach₃⟩ :=
    reaches_key (p := s.program) (m := s.moment.after (frameTime dt)) s.keys [] [] ran₂
      (s.beforeKeys dt st)
  obtain ⟨as₃, rest, rfl, has₃, hrest₃⟩ :=
    Course.split (a := ⟨[.key s.keys], 0, [], ran₂, s.beforeKeys dt st⟩) [.look] hrest₂ hreach₃ rfl
  obtain ⟨bs₂, rfl, htouched, hbs₂⟩ := has₂.announcements_look (by simp) rfl
  obtain ⟨bs₃, rfl, hpressed, hbs₃⟩ := has₃.announcements_look (by simp) rfl
  refine ⟨as₁.map (·.before [.touch s.touches, .key s.keys, .look]),
    ⟨[.touch s.touches, .key s.keys, .look], 0, [], ran₁, s.beforeTouches dt st⟩,
    bs₂.map (·.before [.key s.keys, .look]),
    ⟨[.key s.keys, .look], 0, [], ran₂, s.beforeKeys dt st⟩,
      bs₃.map (·.before [.look]), rest, ?_, ?_⟩
  · simp only [List.map_cons, List.append_assoc, List.cons_append]
    rfl
  · exact {
      scores := by rw [has₁.announcements_before, has₁.announcements_start]
      touches := by rw [hbs₂.announcements_before, htouched]
      keys := by rw [hbs₃.announcements_before, hpressed]
      others := hrest₃.announcements_of_quiet (List.forall_mem_singleton.2 rfl)
      atTouches_duties := rfl
      atTouches_state := rfl
      atKeys_duties := rfl
      atKeys_state := rfl
      decided :=
        List.forall_mem_append.2 ⟨has₁.not_looksAt_before (List.forall_mem_singleton.2 rfl) _,
          hbs₂.not_looksAt_before (List.forall_mem_singleton.2 rfl) _⟩ }

namespace Split
variable {s : Session} {dt : Float} {st : State} {scoring touching keying resuming : List Agenda}
  {atTouches atKeys : Agenda} {r : Record}

/-- No script puts a look on the agenda, so the first one is that of the frame. -/
theorem atTouches_eq (h : Split s dt st scoring atTouches touching atKeys keying resuming)
    (hr : r.agendas = scoring ++ atTouches :: touching ++ atKeys :: keying ++ resuming) :
    r.atTouches? = some atTouches := by
  have hscoring : scoring.find? (·.looksAtTouches) = none :=
    List.find?_eq_none.2 fun b hb => by simp [(h.decided b (List.mem_append_left _ hb)).1]
  have hlooks : atTouches.looksAtTouches = true := by
    simp [Agenda.looksAtTouches, h.atTouches_duties]
  simp [Record.atTouches?, hr, hscoring, hlooks]

theorem atKeys_eq (h : Split s dt st scoring atTouches touching atKeys keying resuming)
    (hr : r.agendas = scoring ++ atTouches :: touching ++ atKeys :: keying ++ resuming) :
    r.atKeys? = some atKeys := by
  have hscoring : scoring.find? (·.looksAtKeys) = none :=
    List.find?_eq_none.2 fun b hb => by simp [(h.decided b (List.mem_append_left _ hb)).2]
  have htouching : touching.find? (·.looksAtKeys) = none :=
    List.find?_eq_none.2 fun b hb => by simp [(h.decided b (List.mem_append_right _ hb)).2]
  have hnot : atTouches.looksAtKeys = false := by simp [Agenda.looksAtKeys, h.atTouches_duties]
  have hlooks : atKeys.looksAtKeys = true := by simp [Agenda.looksAtKeys, h.atKeys_duties]
  simp [Record.atKeys?, hr, hscoring, htouching, hnot, hlooks]

theorem touches_eq (h : Split s dt st scoring atTouches touching atKeys keying resuming)
    (hr : r.agendas = scoring ++ atTouches :: touching ++ atKeys :: keying ++ resuming) :
    r.touches = (s.beforeTouches dt st).world.touchesPlayer := by
  funext object
  rw [Record.touches, h.atTouches_eq hr, Option.any_some, h.atTouches_state]

theorem holds_eq (h : Split s dt st scoring atTouches touching atKeys keying resuming)
    (hr : r.agendas = scoring ++ atTouches :: touching ++ atKeys :: keying ++ resuming) :
    r.holds = (s.beforeKeys dt st).world.isKeyDown := by
  funext key
  rw [Record.holds, h.atKeys_eq hr, Option.any_some, h.atKeys_state]

/-- What a session remembers from the frame before decides what is new in the phases. -/
theorem phases {hs : List Handler} {before : Record} (hbefore : s.Remembers hs before)
    (h : Split s dt st scoring atTouches touching atKeys keying resuming)
    (hr : r.agendas = scoring ++ atTouches :: touching ++ atKeys :: keying ++ resuming) :
    Record.Phases hs before r scoring atTouches touching atKeys keying resuming where
  agendas_eq := hr
  atTouches_eq := h.atTouches_eq hr
  atKeys_eq := h.atKeys_eq hr
  scores := by
    rw [h.scores]
    exact fun e he => hbefore.mem_fireScores he
  touches := by rw [h.touches, h.touches_eq hr, hbefore.touches, risen_bindingsSeen]
  keys := by rw [h.keys, h.holds_eq hr, hbefore.keys, risen_bindingsSeen]
  others := h.others

theorem remembers {hs : List Handler} {before : Record} (hbefore : s.Remembers hs before)
    (h : Split s dt st scoring atTouches touching atKeys keying resuming)
    (hr : r.agendas = scoring ++ atTouches :: touching ++ atKeys :: keying ++ resuming) :
    (s.advance dt st).1.Remembers hs r where
  touches := by
    change sense (s.beforeTouches dt st).world.touchesPlayer s.touches = _
    rw [hbefore.touches, sense_bindingsSeen, h.touches_eq hr]
  keys := by
    change sense (s.beforeKeys dt st).world.isKeyDown s.keys = _
    rw [hbefore.keys, sense_bindingsSeen, h.holds_eq hr]
  scores := by
    change (fireScores (st.ageOverlay (frameTime dt)).mirrorScore.world.score s.scores).2.map _ = _
    rw [armed_fireScores, hbefore.scores]

end Split

section
variable {p : Program} {m : Moment}

theorem State.keys_store (s : State) (name : String) (value : Float) :
    (s.store name value).world.keys = s.world.keys := by
  unfold store
  split <;> rfl

theorem keys_perform (origin : String) (e : Effect) (s : State) :
    (perform p m none origin e s).world.keys = s.world.keys := by
  have hwrite : ∀ name value, (write p m none origin name value s).world.keys = s.world.keys := by
    intro name value
    unfold write
    split <;> exact s.keys_store name value
  cases e with
  | setColor id color =>
    simp only [perform]
    split
    · cases Color.ofText color <;> rfl
    · rfl
  | destroy id =>
    simp only [perform, World.destroyObject]
    split
    · simp only [World.emit]
    · rfl
  | setVariable name value =>
    simp only [perform]
    split
    · rfl
    · exact hwrite name value
  | changeVariable name delta =>
    simp only [perform]
    split
    · rfl
    · exact hwrite name _
  | showMessage text seconds => simp only [perform, State.emit, World.emit]
  | endGame => simp only [perform, State.emit, World.emit]
  | _ => rfl

theorem Agenda.keys_next (a : Agenda) : (a.next p m).state.world.keys = a.state.world.keys := by
  refine next_keeps (fun s => s.world.keys = a.state.world.keys) ?_ ?_ rfl
  · rintro s s' ⟨-, hworld⟩ hs
    rw [hworld]
    exact hs
  · intro origin e s hs
    rw [keys_perform, hs]

theorem Course.keys_eq {a c : Agenda} {as : List Agenda} (h : Course p m a as c) :
    ∀ b ∈ as, b.state.world.keys = a.state.world.keys :=
  (h.forall_mem (fun b => b.state.world.keys = a.state.world.keys)
    (fun b hb => by rw [b.keys_next, hb]) rfl).1

end

namespace Engine.Recorded
variable {e : Engine} {d : Document} {w : World} {beats : List Beat} {records : List Record}

theorem exists_start (h : e.Recorded d w beats records) :
    ∃ as c later, records = ⟨.start, as⟩ :: later ∧
    Course (e.programOf d) .start (Agenda.ofBegin d e.lastTaskId e.random w) as c := by
  induction h with
  | start h => exact ⟨_, _, [], rfl, h⟩
  | update b _ _ _ ih =>
    obtain ⟨as, c, later, rfl, has⟩ := ih
    exact ⟨as, c, _, rfl, has⟩

/-- Nothing is announced at the beginning, and nothing is looked at. -/
theorem start_quiet {as : List Agenda} {c : Agenda}
    (h : Course (e.programOf d) .start (Agenda.ofBegin d e.lastTaskId e.random w) as c) :
    announcements as = [] ∧ Record.touches ⟨.start, as⟩ = (fun _ => false) ∧
      Record.holds ⟨.start, as⟩ = fun _ => false := by
  have hlooks := h.not_looksAt (List.forall_mem_singleton.2 rfl)
  have hatTouches : Record.atTouches? ⟨.start, as⟩ = none :=
    List.find?_eq_none.2 fun b hb => by simp [(hlooks b hb).1]
  have hatKeys : Record.atKeys? ⟨.start, as⟩ = none :=
    List.find?_eq_none.2 fun b hb => by simp [(hlooks b hb).2]
  refine ⟨h.announcements_of_quiet (List.forall_mem_singleton.2 rfl), ?_, ?_⟩
  · funext object
    rw [Record.touches, hatTouches, Option.any_none]
  · funext key
    rw [Record.holds, hatKeys, Option.any_none]

theorem exists_split_frame {s : Session} {b : Beat} {as : List Agenda} {c : Agenda}
    (hs : (e.play d w beats).1.session = some s)
    (h : Course (e.programOf d) (s.moment.after (frameTime b.seconds))
      (Agenda.ofBeat (e.play d w beats) b s) as c) :
    ∃ st, st.world = b.change (e.play d w beats).2 ∧
      (e.play d w (beats ++ [b])).1.session = some (s.advance b.seconds st).1 ∧
      ∃ scoring atTouches touching atKeys keying resuming,
        as = scoring ++ atTouches :: touching ++ atKeys :: keying ++ resuming ∧
          Split s b.seconds st scoring atTouches touching atKeys keying resuming := by
  obtain ⟨s', hs', hprogram⟩ := e.exists_session_play d w beats
  obtain rfl := Option.some.inj (hs.symm.trans hs')
  refine ⟨s.state (e.play d w beats).1.lastTaskId (e.play d w beats).1.faults
    (e.play d w beats).1.random (b.change (e.play d w beats).2), rfl, ?_, ?_⟩
  · rw [play_concat, beat_of_session hs]
    rfl
  · rw [← hprogram] at h
    exact exists_split s b.seconds _ h

/-- After each frame the session remembers what its record shows. -/
theorem exists_remembers (h : e.Recorded d w beats records) :
    ∃ s r, (e.play d w beats).1.session = some s ∧
    records.getLast? = some r ∧ s.Remembers (Handler.ofDocument d) r := by
  induction h with
  | @start as c h =>
    obtain ⟨-, htouches, hholds⟩ := start_quiet h
    refine ⟨_, ⟨.start, as⟩, rfl, rfl, ?_, ?_, ?_⟩
    · rw [htouches]
      rfl
    · rw [hholds]
      rfl
    · change ((Handler.ofDocument d).filterMap Handler.score?).map ScoreTrigger.armed = _
      refine List.map_congr_left (g := id) ?_ |>.trans (List.map_id _)
      intro t ht
      obtain ⟨handler, -, hscore⟩ := List.mem_filterMap.1 ht
      exact Handler.armed_of_score? hscore
  | update b _ hs h ih =>
    obtain ⟨s', before, hs', -, hbefore⟩ := ih
    obtain rfl := Option.some.inj (hs.symm.trans hs')
    obtain ⟨st, -, hsession, scoring, atTouches, touching, atKeys, keying, resuming, has, hsplit⟩ :=
      exists_split_frame hs h
    exact ⟨_, _, hsession, List.getLast?_concat, hsplit.remembers hbefore has⟩

theorem isChain_firesOnEdges (h : e.Recorded d w beats records) :
    records.IsChain (Record.FiresOnEdges (e.programOf d) (Handler.ofDocument d)) := by
  induction h with
  | start _ => exact List.isChain_singleton _
  | @update beats records as c s b hearlier hs h ih =>
    obtain ⟨s', before, hs', hlast, hbefore⟩ := hearlier.exists_remembers
    obtain rfl := Option.some.inj (hs.symm.trans hs')
    refine List.isChain_append.2 ⟨ih, List.isChain_singleton _, ?_⟩
    rintro before' hbefore' r hr
    obtain rfl := Option.some.inj (hlast.symm.trans hbefore')
    obtain rfl := Option.some.inj hr
    obtain ⟨st, -, -, scoring, atTouches, touching, atKeys, keying, resuming, has, hsplit⟩ :=
      exists_split_frame hs h
    obtain ⟨hannounced, -⟩ := h.forall_mem (fun a => ∀ duty ∈ a.duties, duty.isAnnounced = true)
      (fun _ => Agenda.isAnnounced_next)
      (by simp [Agenda.ofBeat, Agenda.ofAdvance, Agenda.ofTriggers, Duty.isAnnounced])
    exact {
      phases := ⟨scoring, atTouches, touching, atKeys, keying, resuming, hsplit.phases hbefore has⟩
      fired := fun _ _ _ _ ha => Agenda.next_of_announced ha
      reported := fun a _ label => (a.triggerFired_mem_emitted_iff label).1
      begun := fun a ha _ _ _ _ => Agenda.begun_next (hannounced a ha) }

/-- A key is held in a frame if it is held in the game that the frame is given. Scripts press no
keys, so those held when the frame began are still held when keys are decided. -/
theorem holds_eq (h : e.Recorded d w beats records) {i : Nat} {b : Beat} {r : Record}
    (hb : beats[i]? = some b) (hr : records[i + 1]? = some r) :
    r.holds = (b.change (e.play d w (beats.take i)).2).isKeyDown := by
  obtain ⟨b', s, c, hb', hs, hmoment, hcourse⟩ := h.exists_frame hr
  obtain rfl := Option.some.inj (hb.symm.trans hb')
  obtain ⟨moment, as⟩ := r
  obtain rfl : moment = _ := hmoment
  dsimp only at hcourse
  obtain ⟨st, -, -, scoring, atTouches, touching, atKeys, keying, resuming, has, hsplit⟩ :=
    exists_split_frame hs hcourse
  have hkeys : atKeys.state.world.keys = (b.change (e.play d w (beats.take i)).2).keys :=
    hcourse.keys_eq atKeys (by simp [has])
  rw [hsplit.holds_eq has, ← hsplit.atKeys_state]
  funext key
  simp only [World.isKeyDown, hkeys]

end Engine.Recorded

/-- Touches and keys fire on their edges. In every play of every document, whatever the game does
between the frames, each frame after the beginning fires exactly the lists of the objects that have
come to overlap the player since the frame before, as the score triggers of the frame left the game,
and of the keys that have gone down since then; before the first frame nothing is touched or held.
Each phase is decided before any of its lists runs, the objects or keys come in ascending order and
the lists of each as they were registered, and each list is reported by one event and then started
once. -/
theorem Engine.play_firesOnEdges (e : Engine) (d : Document) (w : World) (beats : List Beat) :
    ∃ (first : Record) (later : List Record), e.Recorded d w beats (first :: later) ∧
      announcements first.agendas = [] ∧
      (∀ name, first.touches name = false ∧ first.holds name = false) ∧
      (first :: later).IsChain (Record.FiresOnEdges (e.programOf d) (Handler.ofDocument d)) ∧
      ∀ (i : Nat) (b : Beat) (r : Record), beats[i]? = some b → later[i]? = some r →
        ∀ name, r.holds name = (b.change (e.play d w (beats.take i)).2).isKeyDown name := by
  obtain ⟨records, h⟩ := e.exists_recorded d w beats
  obtain ⟨as, c, later, rfl, has⟩ := h.exists_start
  obtain ⟨hquiet, htouches, hholds⟩ := Recorded.start_quiet has
  refine ⟨_, later, h, hquiet, ?_, h.isChain_firesOnEdges, ?_⟩
  · rw [htouches, hholds]
    exact fun _ => ⟨rfl, rfl⟩
  · intro i b r hb hr name
    rw [h.holds_eq hb hr]

end BlockStudio.Script
