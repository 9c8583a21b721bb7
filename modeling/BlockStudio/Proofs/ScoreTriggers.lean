import BlockStudio.Proofs.Edges

/-!
When the lists of score triggers start. A session keeps a mark on each trigger that has fired; the
mark says whether one of the scores that the frames were given so far has met the trigger. Main
statement: the list of a trigger starts in the first frame whose score meets it and in no other
frame, and the lists of one frame start in the order of their chains.
-/
namespace BlockStudio.Script

/-- Whether a list runs under the label of a score trigger. -/
def isScoreLabel (label : String) : Bool := "on_score(".toList.isPrefixOf label.toList

/-- The lists that start in the course of some work, each with the label under which it runs. -/
def starts (as : List Agenda) : List (String × List Action) := as.filterMap Agenda.started?

def scoreStarts (as : List Agenda) : List (String × List Action) :=
  (starts as).filter (isScoreLabel ·.1)

/-- The score triggers of a document in the order of their chains. -/
def scoreTriggers (d : Document) : List ScoreTrigger :=
  (Handler.ofDocument d).filterMap Handler.score?

namespace ScoreTrigger

/-- Whether a score compares as the trigger asks. Without a comparison none does. -/
def isMet (t : ScoreTrigger) (score : Float) : Bool := t.comparison.any (·.holds score t.threshold)

/-- The place of the first score that meets the trigger. -/
def firstMet? (t : ScoreTrigger) (scores : List Float) : Option Nat := scores.findIdx? t.isMet

def labelled (t : ScoreTrigger) : String × List Action :=
  ((Trigger.score t.comparison t.threshold).label, t.actions)

/-- The lists of the triggers that the score of a frame is the first to meet. -/
def firedIn (ts : List ScoreTrigger) (scores : List Float) (i : Nat) :
    List (String × List Action) :=
  (ts.filter fun t => t.firstMet? scores = some i).map labelled

/-- The trigger with the mark that it has after some scores. -/
def after (t : ScoreTrigger) (scores : List Float) : ScoreTrigger :=
  { t with fired := scores.any t.isMet }

theorem firstMet?_of_none {t : ScoreTrigger} (h : t.comparison = none) (scores : List Float) :
    t.firstMet? scores = none := by
  rw [firstMet?, List.findIdx?_eq_none_iff]
  simp [isMet, h]

theorem firstMet?_eq_some_iff (t : ScoreTrigger) {scores : List Float} {i : Nat} {score : Float}
    (h : scores[i]? = some score) :
    t.firstMet? scores = some i ↔ t.isMet score = true ∧ (scores.take i).any t.isMet = false := by
  obtain ⟨hi, rfl⟩ := List.getElem?_eq_some_iff.1 h
  rw [firstMet?, List.findIdx?_eq_some_iff_getElem, List.any_eq_false]
  constructor
  · rintro ⟨_, hmet, hearlier⟩
    refine ⟨hmet, fun x hx => ?_⟩
    obtain ⟨j, hj, rfl⟩ := List.mem_take_iff_getElem.1 hx
    exact hearlier j (by omega)
  · rintro ⟨hmet, hearlier⟩
    exact ⟨hi, hmet, fun j hj => hearlier _ (List.mem_take_iff_getElem.2 ⟨j, by omega, rfl⟩)⟩

theorem map_after_nil (d : Document) : (scoreTriggers d).map (·.after []) = scoreTriggers d := by
  refine (List.map_congr_left fun t ht => ?_).trans (List.map_id _)
  obtain ⟨handler, -, hscore⟩ := List.mem_filterMap.1 ht
  exact Handler.armed_of_score? hscore

end ScoreTrigger

/-- A score fires the triggers that it meets and that no score met before. -/
theorem fireScores_after (ts : List ScoreTrigger) (earlier : List Float) (score : Float) :
    fireScores score (ts.map (·.after earlier)) =
      ((ts.filter fun t => t.isMet score && !earlier.any t.isMet).map ScoreTrigger.labelled,
        ts.map (·.after (earlier ++ [score]))) := by
  induction ts with
  | nil => rfl
  | cons t ts ih =>
    have hmark : (t.after earlier).comparison.any (·.holds score (t.after earlier).threshold) =
        t.isMet score := rfl
    have hfired : (t.after earlier).fired = earlier.any t.isMet := rfl
    rw [List.map_cons, fireScores, ih, hmark, hfired]
    cases hearlier : earlier.any t.isMet <;> cases hnow : t.isMet score <;>
      simp [hearlier, hnow, ScoreTrigger.after, ScoreTrigger.labelled]

section
variable {p : Program} {m : Moment} {a : Agenda} {as : List Agenda}

theorem isScoreLabel_score (comparison : Option Comparison) (threshold : Float) :
    isScoreLabel (Trigger.score comparison threshold).label = true := by
  simp [isScoreLabel, Trigger.label, Trigger.named, String.toList_append]

theorem isScoreLabel_touch (object : String) :
    isScoreLabel (Trigger.touch object).label = false := by
  simp [isScoreLabel, Trigger.label, Trigger.named, String.toList_append, List.isPrefixOf]

theorem isScoreLabel_key (name : String) : isScoreLabel (Trigger.key name).label = false := by
  simp [isScoreLabel, Trigger.label, Trigger.named, String.toList_append, List.isPrefixOf]

theorem isScoreLabel_change (name : String) : isScoreLabel (Trigger.changeLabel name) = false := by
  simp [isScoreLabel, Trigger.changeLabel, Trigger.named, String.toList_append, List.isPrefixOf]

theorem isScoreLabel_of_mem_risen {label : String → String}
    (h : ∀ name, isScoreLabel (label name) = false) {isActive : String → Bool} {t : Table Binding}
    {e : String × List Action} (he : e ∈ risen label isActive t) :
    isScoreLabel e.1 = false := by
  obtain ⟨⟨name, b⟩, -, hrisen⟩ := List.mem_flatMap.1 he
  dsimp only at hrisen
  split at hrisen
  · obtain ⟨actions, -, rfl⟩ := List.mem_map.1 hrisen
    exact h name
  · contradiction

theorem filter_risen (label : String → String) (h : ∀ name, isScoreLabel (label name) = false)
    (isActive : String → Bool) (t : Table Binding) :
    (risen label isActive t).filter (isScoreLabel ·.1) = [] :=
  List.filter_eq_nil_iff.2 fun _ he => by simp [isScoreLabel_of_mem_risen h he]

theorem filter_firedIn (ts : List ScoreTrigger) (scores : List Float) (i : Nat) :
    (ScoreTrigger.firedIn ts scores i).filter (isScoreLabel ·.1) =
      ScoreTrigger.firedIn ts scores i := by
  refine List.filter_eq_self.2 fun e he => ?_
  obtain ⟨t, -, rfl⟩ := List.mem_map.1 he
  exact isScoreLabel_score t.comparison t.threshold

theorem Handler.isScoreLabel_of_start? {h : Handler} {e : String × List Action}
    (he : h.start? = some e) :
    isScoreLabel e.1 = false := by
  unfold start? at he
  split at he
  · rename_i htrigger
    obtain rfl := Option.some.inj he
    simp [labelled, htrigger, isScoreLabel, Trigger.label, List.isPrefixOf]
  · contradiction

/-- Whether the lists that the duty starts are not those of score triggers. -/
def Duty.StartsNoScore : Duty → Prop
  | .start _ lists => ∀ e ∈ lists, isScoreLabel e.1 = false
  | _ => True

namespace Agenda

theorem startsNoScore_next (h : ∀ duty ∈ a.duties, duty.StartsNoScore) :
    ∀ duty ∈ (a.next p m).duties, duty.StartsNoScore := by
  refine a.forall_duties_next p m (fun duty new hnew hduty => ?_) h
  cases hnew with
  | start announced origin actions lists =>
    simpa [Duty.StartsNoScore] using (List.forall_mem_cons.1 hduty).2
  | touch t =>
    exact List.forall_mem_singleton.2 fun e he => isScoreLabel_of_mem_risen isScoreLabel_touch he
  | key t =>
    exact List.forall_mem_singleton.2 fun e he => isScoreLabel_of_mem_risen isScoreLabel_key he
  | _ => simp [Duty.StartsNoScore]

theorem isScoreLabel_of_started (h : ∀ duty ∈ a.duties, duty.StartsNoScore)
    {e : String × List Action} (he : a.started? = some e) : isScoreLabel e.1 = false := by
  unfold started? at he
  split at he
  · rename_i announced e' lists duties hduties
    obtain rfl := Option.some.inj he
    exact h (.start announced (e' :: lists)) (hduties ▸ List.mem_cons_self) e' List.mem_cons_self
  · obtain rfl := Option.some.inj he
    exact isScoreLabel_change _
  · contradiction

theorem started_of_announced {e : String × List Action} (h : a.announced? = some e) :
    a.started? = some e := by
  unfold announced? at h
  split at h
  · rename_i e' lists hfirst
    obtain ⟨duties, hduties⟩ := List.head?_eq_some_iff.1 hfirst
    simpa only [started?, hduties] using h
  · contradiction

/-- What starts under the label of a score trigger is announced: watchers have labels of another
kind. -/
theorem announced_of_isScoreLabel (ha : ∀ duty ∈ a.duties, duty.isAnnounced = true) {label : String}
    {actions : List Action} (h : a.started? = some (label, actions))
    (hlabel : isScoreLabel label = true) :
    a.announced? = some (label, actions) := by
  rcases announced_of_started ha h with hannounced | ⟨name, lists, -, rfl⟩
  · exact hannounced
  · rw [isScoreLabel_change] at hlabel
    contradiction

theorem filter_started (ha : ∀ duty ∈ a.duties, duty.isAnnounced = true) :
    a.started?.filter (isScoreLabel ·.1) = a.announced?.filter (isScoreLabel ·.1) := by
  ext e
  simp only [Option.filter_eq_some_iff]
  constructor
  · rintro ⟨hstarted, hlabel⟩
    exact ⟨announced_of_isScoreLabel ha hstarted hlabel, hlabel⟩
  · rintro ⟨hannounced, hlabel⟩
    exact ⟨started_of_announced hannounced, hlabel⟩

end Agenda

theorem scoreStarts_eq (h : ∀ a ∈ as, ∀ duty ∈ a.duties, duty.isAnnounced = true) :
    scoreStarts as = (announcements as).filter (isScoreLabel ·.1) := by
  simp only [scoreStarts, starts, announcements, List.filter_filterMap]
  exact List.filterMap_congr fun a ha => Agenda.filter_started (h a ha)

end

/-- A frame announces the lists of its score triggers, touches and keys, in this order. -/
theorem Split.announcements_eq {s : Session} {dt : Float} {st : State}
    {scoring touching keying resuming : List Agenda} {atTouches atKeys : Agenda}
    (h : Split s dt st scoring atTouches touching atKeys keying resuming) :
    announcements (scoring ++ atTouches :: touching ++ atKeys :: keying ++ resuming) =
      (fireScores (st.ageOverlay (frameTime dt)).mirrorScore.world.score s.scores).1 ++
        risen (Trigger.label ∘ .touch) (s.beforeTouches dt st).world.touchesPlayer s.touches ++
        risen (Trigger.label ∘ .key) (s.beforeKeys dt st).world.isKeyDown s.keys := by
  have hatTouches : atTouches.announced? = none := by simp [Agenda.announced?, h.atTouches_duties]
  have hatKeys : atKeys.announced? = none := by simp [Agenda.announced?, h.atKeys_duties]
  rw [← h.scores, ← h.touches, ← h.keys, ← List.append_nil (announcements keying), ← h.others]
  simp [announcements, hatTouches, hatKeys]

/-- The work of a frame starts some lists for score triggers. They are settled before anything runs
in the frame, and start in their order; each start is reported by an event of its own just before
the list begins to run. Every run that a step of the frame brings was going on already or is of a
list that the step starts. -/
structure Record.StartsForScores (p : Program) (lists : List (String × List Action))
    (r : Record) : Prop where
  settled : ∃ a duties, r.agendas.head? = some a ∧ a.duties = .start true lists :: duties
  started : scoreStarts r.agendas = lists
  reported : ∀ a ∈ r.agendas, ∀ label actions, a.started? = some (label, actions) →
    isScoreLabel label = true →
    a.emitted p r.moment = [.triggerFired label] ∧
      ∃ id duties, (a.next p r.moment).duties =
        .run (.launched id label actions) [.begin actions] :: duties
  launched : ∀ a ∈ r.agendas, ∀ id label actions stack,
    .run (.launched id label actions) stack ∈ (a.next p r.moment).duties →
      (∃ stack', .run (.launched id label actions) stack' ∈ a.duties) ∨
        a.started? = some (label, actions)

namespace Engine
variable {e : Engine} {d : Document} {w : World} {beats : List Beat} {records : List Record}

/-- The scores that the frames of a play are given, after what the game has changed. -/
def entryScores (e : Engine) (d : Document) (w : World) (beats : List Beat) : List Float :=
  beats.mapIdx fun i b => (b.change (e.play d w (beats.take i)).2).score

theorem getElem?_entryScores {i : Nat} {b : Beat} (hb : beats[i]? = some b) :
    (e.entryScores d w beats)[i]? = some (b.change (e.play d w (beats.take i)).2).score := by
  rw [entryScores, List.getElem?_mapIdx, hb]
  rfl

theorem take_entryScores (i : Nat) :
    (e.entryScores d w beats).take i = e.entryScores d w (beats.take i) := by
  ext1 j
  simp only [entryScores, List.getElem?_take, List.getElem?_mapIdx, List.take_take]
  split
  · rename_i hj
    rw [Nat.min_eq_left (by omega)]
  · rfl

theorem entryScores_concat (b : Beat) :
    e.entryScores d w (beats ++ [b]) =
      e.entryScores d w beats ++ [(b.change (e.play d w beats).2).score] := by
  rw [entryScores, List.mapIdx_concat, List.take_left' rfl]
  congr 1
  exact List.mapIdx_eq_mapIdx_iff.2 fun i hi => by rw [List.take_append_of_le_length (by omega)]

/-- The marks of a session say which triggers the scores of its frames have met. -/
theorem scores_eq {s : Session} (hs : (e.play d w beats).1.session = some s) :
    s.scores = (scoreTriggers d).map (·.after (e.entryScores d w beats)) := by
  induction beats using List.reverseRecOn generalizing s with
  | nil =>
    obtain rfl := Option.some.inj hs
    exact (ScoreTrigger.map_after_nil d).symm
  | append_singleton beats b ih =>
    obtain ⟨s', hs', -⟩ := e.exists_session_play d w beats
    rw [play_concat, (session_beat hs' b).1] at hs
    obtain rfl := Option.some.inj hs
    change (fireScores (b.change (e.play d w beats).2).score s'.scores).2 = _
    rw [ih hs', fireScores_after, entryScores_concat]

/-- The triggers that a frame fires are those that its score is the first to meet. -/
theorem fireScores_eq {i : Nat} {b : Beat} {s : Session} (hb : beats[i]? = some b)
    (hs : (e.play d w (beats.take i)).1.session = some s) :
    (fireScores (b.change (e.play d w (beats.take i)).2).score s.scores).1 =
      ScoreTrigger.firedIn (scoreTriggers d) (e.entryScores d w beats) i := by
  rw [scores_eq hs, fireScores_after]
  refine congrArg (List.map _) (List.filter_congr fun t _ => ?_)
  rw [Bool.eq_iff_iff, decide_eq_true_eq,
    t.firstMet?_eq_some_iff (getElem?_entryScores hb), take_entryScores, Bool.and_eq_true,
    Bool.not_eq_true']

namespace Recorded

/-- At the beginning only the lists of the start and watchers start. -/
theorem scoreStarts_start {as : List Agenda} {c : Agenda}
    (h : Course (e.programOf d) .start (Agenda.ofBegin d e.lastTaskId e.random w) as c) :
    scoreStarts as = [] := by
  have hbegin : ∀ duty ∈ (Agenda.ofBegin d e.lastTaskId e.random w).duties, duty.StartsNoScore := by
    refine List.forall_mem_singleton.2 fun l hl => ?_
    obtain ⟨handler, -, hstart⟩ := List.mem_filterMap.1 hl
    exact Handler.isScoreLabel_of_start? hstart
  obtain ⟨hall, -⟩ := h.forall_mem (fun a => ∀ duty ∈ a.duties, duty.StartsNoScore)
    (fun _ => Agenda.startsNoScore_next) hbegin
  refine List.filter_eq_nil_iff.2 fun l hl => ?_
  obtain ⟨a, ha, hstarted⟩ := List.mem_filterMap.1 hl
  simp [Agenda.isScoreLabel_of_started (hall a ha) hstarted]

theorem startsForScores (h : e.Recorded d w beats records) {i : Nat} {r : Record}
    (hr : records[i + 1]? = some r) :
    r.StartsForScores (e.programOf d)
      (ScoreTrigger.firedIn (scoreTriggers d) (e.entryScores d w beats) i) := by
  obtain ⟨b, s, c, hb, hs, hmoment, hcourse⟩ := h.exists_frame hr
  obtain ⟨moment, as⟩ := r
  obtain rfl : moment = _ := hmoment
  obtain ⟨st, hworld, -, scoring, atTouches, touching, atKeys, keying, resuming, has, hsplit⟩ :=
    exists_split_frame hs hcourse
  have hfired : (fireScores st.world.score s.scores).1 =
      ScoreTrigger.firedIn (scoreTriggers d) (e.entryScores d w beats) i := by
    rw [hworld, fireScores_eq hb hs]
  obtain ⟨hannounced, -⟩ := hcourse.forall_mem (fun a => ∀ duty ∈ a.duties, duty.isAnnounced = true)
    (fun _ => Agenda.isAnnounced_next)
    (by simp [Agenda.ofBeat, Agenda.ofAdvance, Agenda.ofTriggers, Duty.isAnnounced])
  refine ⟨⟨Agenda.ofBeat _ b s, [.touch s.touches, .key s.keys, .look], hcourse.head?_eq ?_, ?_⟩,
    ?_, ?_, fun a _ _ _ _ _ => Agenda.launched_next⟩
  · simp [Agenda.ofBeat, Agenda.ofAdvance, Agenda.ofTriggers]
  · rw [← fireScores_eq hb hs]
    rfl
  · have hscores :
        (fireScores (st.ageOverlay (frameTime b.seconds)).mirrorScore.world.score s.scores).1 =
        ScoreTrigger.firedIn (scoreTriggers d) (e.entryScores d w beats) i := hfired
    rw [scoreStarts_eq hannounced, has, hsplit.announcements_eq, hscores, List.filter_append,
      List.filter_append, filter_firedIn, filter_risen (Trigger.label ∘ .touch) isScoreLabel_touch,
      filter_risen (Trigger.label ∘ .key) isScoreLabel_key, List.append_nil, List.append_nil]
  · intro a ha label actions hstarted hlabel
    exact Agenda.next_of_announced
      (Agenda.announced_of_isScoreLabel (hannounced a ha) hstarted hlabel)

end Recorded

end Engine

/-- Score triggers fire at most once, in the right frame and in order. In every play of every
document, whatever the game does between the frames, nothing starts for a score trigger at the
beginning, and in a frame exactly the lists start of the triggers that the score which the frame is
given is the first to meet, in the order of their chains. They are settled when the frame begins,
and each is reported by one event and then started once. A trigger that compares in no known way is
never met. -/
theorem Engine.play_firesScoresOnce (e : Engine) (d : Document) (w : World) (beats : List Beat) :
    ∃ (first : Record) (later : List Record), e.Recorded d w beats (first :: later) ∧
      later.length = beats.length ∧ scoreStarts first.agendas = [] ∧
      (∀ (i : Nat) (r : Record), later[i]? = some r →
        r.StartsForScores (e.programOf d)
          (ScoreTrigger.firedIn (scoreTriggers d) (e.entryScores d w beats) i)) ∧
      ∀ t ∈ scoreTriggers d, t.comparison = none →
        t.firstMet? (e.entryScores d w beats) = none := by
  obtain ⟨records, h⟩ := e.exists_recorded d w beats
  obtain ⟨as, c, later, rfl, has⟩ := h.exists_start
  refine ⟨_, later, h, ?_, Recorded.scoreStarts_start has, fun i r hr => ?_,
    fun t _ ht => t.firstMet?_of_none ht _⟩
  · have hlength := h.length_eq
    simpa using hlength
  · exact h.startsForScores (by simpa using hr)

end BlockStudio.Script
