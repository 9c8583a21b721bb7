import BlockStudio.Proofs.Courses
import BlockStudio.Proofs.Tracked

/-!
Objects that scripts destroy. A step changes the game by the effect that a run comes to, or it
reports a trigger, or it leaves the game alone; and all effects but one leave every object in the
game and in its place. Main statement: in a game that a scene has set up, the table of objects and
the places that track them agree all through a play, and an object leaves both in one step, which
reports the place that held it.
-/
namespace BlockStudio

/-- The object that an event reports as destroyed. -/
def EventContent.destroyed? : EventContent → Option ObjectId
  | .objectDestroyed id _ => some id
  | _ => none

namespace World

/-- A change of the game that destroys no object, with the one event that it may emit. -/
structure Spares (w : World) (event? : Option EventContent) (w' : World) : Prop where
  tracking_eq : w'.tracking = w.tracking
  loses : Loses w.objects [] w'.objects
  bus_eq : w'.bus = event?.toList.foldl .emit w.bus
  quiet : event?.bind EventContent.destroyed? = none

namespace Spares
variable {w w' : World}

theorem of_eq (htracking : w'.tracking = w.tracking) (hobjects : w'.objects = w.objects)
    (hbus : w'.bus = w.bus) :
    w.Spares none w' :=
  ⟨htracking, hobjects ▸ .refl _, hbus, rfl⟩

theorem emit (w : World) {content : EventContent} (h : content.destroyed? = none) :
    w.Spares (some content) (w.emit content) := by
  refine ⟨?_, ?_, rfl, h⟩ <;> simp only [World.emit]
  exact .refl _

end Spares

end World

namespace Script

section
variable {p : Program} {m : Moment} {origin : String}

theorem State.spares_store (s : State) (name : String) (value : Float) :
    s.world.Spares none (s.store name value).world := by
  simp only [State.store]
  split <;> exact .of_eq rfl rfl rfl

theorem spares_write (name : String) (value : Float) (s : State) :
    s.world.Spares none (write p m none origin name value s).world := by
  have hstore := s.spares_store name value
  unfold write
  split <;> exact hstore

theorem State.spares_editObject (s : State) (id : ObjectId) {f : GameObject → GameObject}
    (hf : ∀ o, (f o).width = o.width ∧ (f o).height = o.height) :
    s.world.Spares none (s.editObject id f).world :=
  ⟨rfl, .modify _ id hf, rfl, rfl⟩

/-- An effect destroys an object or spares all of them. -/
theorem perform_spares (p : Program) (m : Moment) (origin : String) (e : Effect) (s : State) :
    (∃ id, e = .destroy id ∧ (perform p m none origin e s).world = s.world.destroyObject id) ∨
      (∀ id, e ≠ .destroy id) ∧
        ∃ event?, s.world.Spares event? (perform p m none origin e s).world := by
  cases e with
  | destroy id => exact .inl ⟨id, rfl, rfl⟩
  | move id dx dy => exact .inr ⟨by simp, none, s.spares_editObject id fun _ => ⟨rfl, rfl⟩⟩
  | teleport id x y => exact .inr ⟨by simp, none, s.spares_editObject id fun _ => ⟨rfl, rfl⟩⟩
  | setVisible id visible => exact .inr ⟨by simp, none, s.spares_editObject id fun _ => ⟨rfl, rfl⟩⟩
  | setColor id color =>
    refine .inr ⟨by simp, none, ?_⟩
    simp only [perform]
    split
    · cases Color.ofText color with
      | ok color => exact s.spares_editObject id fun _ => ⟨rfl, rfl⟩
      | error err => exact .of_eq rfl rfl rfl
    · exact .of_eq rfl rfl rfl
  | setVariable name value =>
    refine .inr ⟨by simp, none, ?_⟩
    simp only [perform]
    split
    · exact .of_eq rfl rfl rfl
    · exact spares_write name value s
  | changeVariable name delta =>
    refine .inr ⟨by simp, none, ?_⟩
    simp only [perform]
    split
    · exact .of_eq rfl rfl rfl
    · exact spares_write name _ s
  | addScore amount => exact .inr ⟨by simp, none, .of_eq rfl rfl rfl⟩
  | setScore value => exact .inr ⟨by simp, none, .of_eq rfl rfl rfl⟩
  | showMessage text seconds => exact .inr ⟨by simp, _, .emit s.world rfl⟩
  | endGame =>
    obtain ⟨htracking, hloses, hbus, hquiet⟩ := World.Spares.emit { s.world with ended := true }
      (show (EventContent.gameEnded origin).destroyed? = none from rfl)
    exact .inr ⟨by simp, _, htracking, hloses, hbus, hquiet⟩

/-- An effect on an object that does not exist leaves the objects and their places alone. -/
theorem perform_absent {e : Effect} {s : State} {id : ObjectId} (he : e.objectId? = some id)
    (hid : s.world.objects.contains id = false) :
    (perform p m none origin e s).world.objects = s.world.objects ∧
      (perform p m none origin e s).world.tracking = s.world.tracking := by
  have hmodify : ∀ f, s.world.objects.modify id f = s.world.objects := by
    intro f
    have hnone : s.world.objects.get? id = none := by simpa [Table.contains] using hid
    simp only [Table.modify, hnone]
  cases e <;> simp only [Effect.objectId?, Option.some.injEq, reduceCtorEq] at he <;> subst he
  case setColor color => simp [perform, hid]
  case destroy => simp [perform, World.destroyObject, hid]
  all_goals exact ⟨hmodify _, rfl⟩

end

namespace Agenda

/-- The object that the next step destroys. -/
def destroyed? (a : Agenda) : Option ObjectId :=
  match a.effect? with
  | some (.destroy id) => if a.state.world.objects.contains id then some id else none
  | _ => none

section
variable {p : Program} {m : Moment}

/-- A step destroys the object that it should, or spares all objects. -/
theorem next_destroys_or_spares (a : Agenda) :
    (∃ id, a.effect? = some (.destroy id) ∧ a.destroyed? = some id ∧
      a.state.world.objects.contains id = true ∧
        (a.next p m).state.world = a.state.world.destroyObject id) ∨
      a.destroyed? = none ∧ ∃ event?, a.state.world.Spares event? (a.next p m).state.world := by
  rcases a.next_changes p m with ⟨e, origin, he, -, hworld⟩ | ⟨hnone, -, hworld⟩
  · rcases perform_spares p m origin e a.state with ⟨id, rfl, hdestroy⟩ | ⟨hother, event?, hspares⟩
    · rw [hdestroy] at hworld
      cases hid : a.state.world.objects.contains id with
      | true => exact .inl ⟨id, he, by simp [destroyed?, he, hid], hid, hworld⟩
      | false =>
        refine .inr ⟨by simp [destroyed?, he, hid], none, ?_⟩
        rw [hworld, World.destroyObject, hid]
        exact .of_eq rfl rfl rfl
    · refine .inr ⟨?_, event?, hworld ▸ hspares⟩
      unfold destroyed?
      split
      · rename_i id hid
        obtain rfl : e = .destroy id := Option.some.inj (he.symm.trans hid)
        exact absurd rfl (hother id)
      · rfl
  · refine .inr ⟨by simp [destroyed?, hnone], ?_⟩
    rcases hworld with hworld | ⟨label, hworld⟩ <;> rw [hworld]
    · exact ⟨none, .of_eq rfl rfl rfl⟩
    · exact ⟨_, .emit _ (show (EventContent.triggerFired label).destroyed? = none from rfl)⟩

theorem emitted_of_bus {a : Agenda} {event? : Option EventContent}
    (h : (a.unlogged.next p m).state.world.bus =
      event?.toList.foldl .emit a.unlogged.state.world.bus) :
    a.emitted p m = event?.toList := by
  rw [emitted, h]
  exact EventBus.entries_foldl_emit_empty event? a.state.world.bus.frame

/-- A step reports the object that it destroys, with the place that tracks it, and no other. -/
theorem emitted_destroys (a : Agenda) :
    (∀ id, a.destroyed? = some id →
      a.emitted p m = [.objectDestroyed id (a.state.world.tracking.find? id)]) ∧
      (a.emitted p m).filterMap EventContent.destroyed? = a.destroyed?.toList := by
  have hsame : a.unlogged.destroyed? = a.destroyed? := rfl
  rcases a.unlogged.next_destroys_or_spares (p := p) (m := m)
    with ⟨id, -, hid, hthere, hworld⟩ | ⟨hnone, event?, hspares⟩
  · have hemitted : a.emitted p m = [.objectDestroyed id (a.state.world.tracking.find? id)] := by
      refine emitted_of_bus (show _ = (some _).toList.foldl _ _ from ?_)
      rw [hworld, World.destroyObject, if_pos hthere, ← Tracking.untrack_fst]
      rfl
    rw [hsame] at hid
    rw [hid, hemitted]
    refine ⟨fun id' hid' => ?_, rfl⟩
    rw [Option.some.inj hid']
  · rw [hsame] at hnone
    rw [hnone, emitted_of_bus hspares.bus_eq]
    refine ⟨fun id hid => by contradiction, ?_⟩
    have hquiet := hspares.quiet
    cases event? with
    | none => rfl
    | some content => simpa using hquiet

/-- The table of objects and the places that track them go together through a step. It destroys an
object, which leaves the table and the place that held it and is reported with this place, or it
leaves all objects in their places. -/
structure KeepsTrack (p : Program) (m : Moment) (a : Agenda) : Prop where
  consistent : a.state.world.IsConsistent
  loses : Loses a.state.world.objects a.destroyed?.toList (a.next p m).state.world.objects
  destroyed : ∀ id, a.destroyed? = some id →
    (a.next p m).state.world.objects = a.state.world.objects.erase id ∧
      ∃ place, a.emitted p m = [.objectDestroyed id place] ∧
        ∀ q, (place = some q ↔ id ∈ a.state.world.tracking.held q) ∧
          (a.next p m).state.world.tracking.held q = (a.state.world.tracking.held q).erase id ∧
          (place ≠ some q → (a.next p m).state.world.tracking.held q =
            a.state.world.tracking.held q)
  spared : a.destroyed? = none → (a.next p m).state.world.tracking = a.state.world.tracking ∧
    ∀ id place, .objectDestroyed id place ∉ a.emitted p m
  absent : ∀ e id, a.effect? = some e → e.objectId? = some id →
    a.state.world.objects.contains id = false →
    (a.next p m).state.world.objects = a.state.world.objects ∧
      (a.next p m).state.world.tracking = a.state.world.tracking

theorem loses_next (a : Agenda) :
    Loses a.state.world.objects a.destroyed?.toList (a.next p m).state.world.objects := by
  rcases a.next_destroys_or_spares (p := p) (m := m) with
      ⟨id, -, hid, hthere, hworld⟩ | ⟨hnone, event?, hspares⟩
  · rw [hworld, hid, World.destroyObject, if_pos hthere]
    exact .erase hthere
  · rw [hnone]
    exact hspares.loses

theorem isConsistent_next {a : Agenda} (h : a.state.world.IsConsistent) :
    (a.next p m).state.world.IsConsistent := by
  rcases a.next_destroys_or_spares (p := p) (m := m) with
      ⟨id, -, -, -, hworld⟩ | ⟨-, event?, hspares⟩
  · rw [hworld]
    exact h.destroyObject id
  · refine ⟨fun id hid => ?_, hspares.tracking_eq ▸ h.distinct⟩
    rw [hspares.tracking_eq] at hid
    have hkept := hspares.loses.mem_iff id
    simpa [h.known id hid] using hkept

theorem keepsTrack {a : Agenda} (h : a.state.world.IsConsistent) : a.KeepsTrack p m where
  consistent := h
  loses := a.loses_next
  destroyed id hid := by
    have hemitted := (a.emitted_destroys (p := p) (m := m)).1 id hid
    rcases a.next_destroys_or_spares (p := p) (m := m) with
        ⟨id', -, hid', hthere, hworld⟩ | ⟨hnone, -⟩
    · obtain rfl : id' = id := Option.some.inj (hid'.symm.trans hid)
      rw [World.destroyObject, if_pos hthere] at hworld
      have hobjects : (a.next p m).state.world.objects = a.state.world.objects.erase id' := by
        rw [hworld]; rfl
      have htracking : (a.next p m).state.world.tracking =
          (a.state.world.tracking.untrack id').2 := by rw [hworld]; rfl
      refine ⟨hobjects, _, hemitted,
        fun q => ⟨Tracking.find?_eq_some_iff h.distinct, ?_, fun hother => ?_⟩⟩
      · rw [htracking, Tracking.held_untrack h.distinct]
      · rw [htracking, Tracking.held_untrack h.distinct]
        exact List.erase_of_not_mem fun hmem =>
          hother ((Tracking.find?_eq_some_iff h.distinct).2 hmem)
    · rw [hnone] at hid
      contradiction
  spared hnone := by
    have hreported := (a.emitted_destroys (p := p) (m := m)).2
    rw [hnone] at hreported
    refine ⟨?_, fun id place hmem => ?_⟩
    · rcases a.next_destroys_or_spares (p := p) (m := m) with ⟨id, -, hid, -⟩ | ⟨-, event?, hspares⟩
      · rw [hnone] at hid
        contradiction
      · exact hspares.tracking_eq
    · have habsent := List.filterMap_eq_nil_iff.1 hreported _ hmem
      contradiction
  absent e id he hid hgone := by
    rcases a.next_changes p m with ⟨e', origin, he', -, hworld⟩ | ⟨hnone, -⟩
    · obtain rfl : e' = e := Option.some.inj (he'.symm.trans he)
      rw [hworld]
      exact perform_absent hid hgone
    · rw [hnone] at he
      contradiction

end

end Agenda

/-- The objects that a course destroys leave the table, one after the other. -/
theorem Course.loses {p : Program} {m : Moment} {a c : Agenda} {as : List Agenda}
    (h : Course p m a as c) :
    Loses a.state.world.objects (as.filterMap Agenda.destroyed?) c.state.world.objects := by
  induction h with
  | done _ => exact .refl _
  | @next a c as _ _ ih =>
    have hstep := (a.loses_next (p := p) (m := m)).trans ih
    cases hid : a.destroyed? <;> simpa [hid] using hstep

theorem Record.filterMap_events (p : Program) (r : Record) :
    (r.events p).filterMap EventContent.destroyed? = r.agendas.filterMap Agenda.destroyed? := by
  rw [Record.events, List.filterMap_flatMap]
  have hstep : ∀ a : Agenda, (a.emitted p r.moment).filterMap EventContent.destroyed? =
      a.destroyed?.toList :=
    fun a => a.emitted_destroys.2
  simp only [hstep]
  exact (List.filterMap_eq_flatMap_toList _ _).symm

namespace Engine
variable {e : Engine} {d : Document} {w : World} {beats : List Beat} {records : List Record}

/-- The objects that the scripts of a play destroy, in order. -/
def destroyedIn (records : List Record) : List ObjectId :=
  (records.flatMap (·.agendas)).filterMap Agenda.destroyed?

theorem Recorded.loses (h : e.Recorded d w beats records)
    (hbeats : ∀ b ∈ beats, ∀ w : World, (b.change w).objects = w.objects) :
    Loses w.objects (destroyedIn records) (e.play d w beats).2.objects := by
  induction h with
  | start h =>
    have hloses : Loses _ _ (e.play d w []).2.objects := state_of_course_begin h ▸ h.loses
    rw [world_ofBegin] at hloses
    simpa [destroyedIn] using hloses
  | @update beats records as c s b _ hs h ih =>
    have hearlier := ih fun b hb => hbeats b (List.mem_append_left _ hb)
    have hloses : Loses _ _ (e.play d w (beats ++ [b])).2.objects :=
      state_of_course_beat hs h ▸ h.loses
    have hchange : (Agenda.ofBeat (e.play d w beats) b s).state.world.objects =
        (e.play d w beats).2.objects :=
      hbeats b (List.mem_append_right _ (List.mem_singleton_self b)) _
    rw [hchange] at hloses
    simpa [destroyedIn] using hearlier.trans hloses

theorem Recorded.isConsistent (h : e.Recorded d w beats records) (hw : w.IsConsistent)
    (hbeats : ∀ b ∈ beats, ∀ w : World, (b.change w).objects = w.objects ∧
      (b.change w).tracking = w.tracking) :
    (∀ r ∈ records, ∀ a ∈ r.agendas, a.state.world.IsConsistent) ∧
      (e.play d w beats).2.IsConsistent := by
  refine h.forall_agendas (fun a => a.state.world.IsConsistent)
    (fun s => s.world.IsConsistent) ?_ ?_ (fun _ _ ha => Agenda.isConsistent_next ha) fun _ _ hc =>
      hc
  · rwa [world_ofBegin]
  · intro r s _ hr b hb
    exact World.IsConsistent.of_eq (w := r.2) hr (hbeats b hb r.2).1 (hbeats b hb r.2).2

end Engine

/-- Destroying keeps the game consistent. A scene whose objects have different ids sets a game up,
and afterwards only scripts change its objects and the places that track them, whatever else happens
between the frames. Then in every play of every document each tracked object exists and is tracked
once, before and after every step of every frame. Objects only leave, and keep their sizes. An
object that leaves is destroyed by one step, which takes it out of the place that held it and of no
other and reports it once with this place; an effect on an object that is gone does nothing. -/
theorem Engine.play_destroysConsistently (e : Engine) (d : Document) (s : Scene) (w : World)
    (beats : List Beat) (hids : (s.objects.map (·.id)).Nodup)
    (hbeats : ∀ b ∈ beats, ∀ w : World, (b.change w).objects = w.objects ∧
      (b.change w).tracking = w.tracking) :
    ∃ records, e.Recorded d (s.setUp w) beats records ∧
      (∀ r ∈ records, ∀ a ∈ r.agendas, a.KeepsTrack (e.programOf d) r.moment) ∧
      (e.play d (s.setUp w) beats).2.IsConsistent ∧
      Loses (s.setUp w).objects (destroyedIn records) (e.play d (s.setUp w) beats).2.objects ∧
      (records.flatMap (Record.events (e.programOf d))).filterMap EventContent.destroyed? =
        destroyedIn records := by
  obtain ⟨records, h⟩ := e.exists_recorded d (s.setUp w) beats
  obtain ⟨hall, hend⟩ := h.isConsistent (World.isConsistent_setUp hids w) hbeats
  refine ⟨records, h, fun r hr a ha => Agenda.keepsTrack (hall r hr a ha), hend,
    h.loses fun b hb w => (hbeats b hb w).1, ?_⟩
  simp only [destroyedIn, List.filterMap_flatMap, Record.filterMap_events]

/-- A scene with a coin to collect and a flag to reach. -/
def coinScene : Scene :=
  ⟨none, [⟨"coin", 0, 0, 32, 32, none, some "collectible"⟩,
    ⟨"flag", 64, 0, 32, 32, none, some "goal"⟩]⟩

/-- A script that destroys the coin and then still tries to hide it. -/
def coinDocument : Document :=
  ⟨[⟨1, 0, 0, [⟨(), "on_start", .empty, none, none⟩,
    ⟨(), "destroy_obj", .ofList [("object", "coin")], none, none⟩,
    ⟨(), "wait", .ofList [("seconds", "1")], none, none⟩,
    ⟨(), "hide_obj", .ofList [("object", "coin")], none, none⟩]⟩], []⟩

def coinBeats : List Beat := [⟨id, 1⟩, ⟨fun w => w.pressKey "left", 1⟩]

theorem play_destroysConsistently_coin :
    (coinScene.objects.map (·.id)).Nodup ∧
      (∀ b ∈ coinBeats, ∀ w : World, (b.change w).objects = w.objects ∧
        (b.change w).tracking = w.tracking) ∧
      ∃ records, (Engine.ofSeed .standard 7).Recorded coinDocument
        (coinScene.setUp .empty) coinBeats records ∧
        (∀ r ∈ records, ∀ a ∈ r.agendas,
          a.KeepsTrack ((Engine.ofSeed .standard 7).programOf coinDocument) r.moment) ∧
        ((Engine.ofSeed .standard 7).play coinDocument
          (coinScene.setUp .empty) coinBeats).2.IsConsistent ∧
        Loses (coinScene.setUp .empty).objects (Engine.destroyedIn records)
          ((Engine.ofSeed .standard 7).play coinDocument
            (coinScene.setUp .empty) coinBeats).2.objects ∧
        (records.flatMap (Record.events
          ((Engine.ofSeed .standard 7).programOf coinDocument))).filterMap
            EventContent.destroyed? = Engine.destroyedIn records := by
  have hids : (coinScene.objects.map (·.id)).Nodup := by decide
  have hbeats : ∀ b ∈ coinBeats, ∀ w : World,
      (b.change w).objects = w.objects ∧ (b.change w).tracking = w.tracking := by
    intro b hb w
    rcases List.mem_pair.1 hb with rfl | rfl <;> exact ⟨rfl, rfl⟩
  exact ⟨hids, hbeats,
    Engine.play_destroysConsistently _ coinDocument coinScene .empty coinBeats hids hbeats⟩

end Script

end BlockStudio
