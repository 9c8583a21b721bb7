import BlockStudio.Proofs.Courses

/-!
The variable that mirrors the score. A write to either of the two writes both in one step, and each
frame begins by bringing the variable up to the score that the game was given from outside. Main
statement: all through a play, before every step of every run and at every start of a list, the
variable is there and has the score.
-/
namespace BlockStudio.Script

/-- The score variable exists and has the score of the game. -/
def State.MirrorsScore (s : State) : Prop :=
  s.variableValues.get? scoreVariable = some s.world.score

namespace State.MirrorsScore
variable {s s' : State}

theorem of_sameGame (hsame : s.SameGame s') (h : s.MirrorsScore) : s'.MirrorsScore := by
  obtain ⟨hvariables, hworld⟩ := hsame
  rw [MirrorsScore, hvariables, hworld]
  exact h

theorem mirrorScore (s : State) : s.mirrorScore.MirrorsScore := Table.get?_insert_self _ _ _

theorem setScore (s : State) (value : Float) : (s.setScore value).MirrorsScore :=
  Table.get?_insert_self _ _ _

theorem store (h : s.MirrorsScore) (name : String) (value : Float) :
    (s.store name value).MirrorsScore := by
  unfold State.store
  split
  · rename_i hname
    subst hname
    exact Table.get?_insert_self _ _ _
  · rename_i hname
    exact (Table.get?_insert_of_ne _ _ (Ne.symm hname)).trans h

theorem write {p : Program} {m : Moment} {origin : String} (h : s.MirrorsScore)
    (name : String) (value : Float) :
    (write p m none origin name value s).MirrorsScore := by
  unfold Script.write
  split <;> exact h.store name value

theorem perform {p : Program} {m : Moment} {origin : String} (h : s.MirrorsScore) (e : Effect) :
    (perform p m none origin e s).MirrorsScore := by
  cases e with
  | setColor id color =>
    simp only [Script.perform]
    split
    · cases Color.ofText color <;> exact h
    · exact h
  | destroy id =>
    simp only [Script.perform, World.destroyObject]
    split
    · simp only [MirrorsScore, World.emit]
      exact h
    · exact h
  | setVariable name value =>
    simp only [Script.perform]
    split
    · exact h
    · exact h.write name value
  | changeVariable name delta =>
    simp only [Script.perform]
    split
    · exact h
    · exact h.write name _
  | addScore amount => exact setScore s _
  | setScore value => exact setScore s value
  | showMessage text seconds =>
    have hshown : ({ s with overlay := some ⟨text, seconds⟩ } : State).MirrorsScore := h
    exact hshown.of_sameGame (State.emit_sameGame _ _)
  | endGame =>
    have hended : ({ s with world := { s.world with ended := true } } : State).MirrorsScore := h
    exact hended.of_sameGame (State.emit_sameGame _ _)
  | _ => exact h

theorem next {p : Program} {m : Moment} {a : Agenda} (h : a.state.MirrorsScore) :
    (a.next p m).state.MirrorsScore :=
  Agenda.next_keeps State.MirrorsScore (fun _ _ hsame h => h.of_sameGame hsame)
    (fun _ e _ h => h.perform e) h

theorem ofBegin (d : Document) (lastTaskId : Nat) (random : Random) (w : World) :
    (Agenda.ofBegin d lastTaskId random w).state.MirrorsScore :=
  List.foldlRecOn _ State.addTimer (mirrorScore _) fun _ h _ _ => h.of_sameGame ⟨rfl, rfl⟩

end State.MirrorsScore

theorem Engine.Recorded.mirrorsScore {e : Engine} {d : Document} {w : World} {beats : List Beat}
    {records : List Record} (h : e.Recorded d w beats records) :
    (∀ r ∈ records, ∀ a ∈ r.agendas, a.state.MirrorsScore) ∧
      ((e.play d w beats).1.state (e.play d w beats).2).MirrorsScore :=
  h.forall_mem State.MirrorsScore (State.MirrorsScore.ofBegin d _ _ w)
    (fun _ _ _ => State.MirrorsScore.mirrorScore _) fun _ _ ha => ha.next

/-- The score mirror never drifts. In every play of every document, whatever the game does between
the frames, the score variable exists and has the score of the game before each step of the work:
before each condition is looked at, before each list starts and before each waiting task goes on. So
it does at the end of the beginning and of every frame. -/
theorem Engine.play_mirrorsScore (e : Engine) (d : Document) (w : World) (beats : List Beat) :
    ∃ records, e.Recorded d w beats records ∧
      (∀ r ∈ records, ∀ a ∈ r.agendas, a.state.MirrorsScore) ∧
      (e.play d w beats).1.variableValues.get? scoreVariable = some (e.play d w beats).2.score := by
  obtain ⟨records, h⟩ := e.exists_recorded d w beats
  obtain ⟨hall, hend⟩ := h.mirrorsScore
  exact ⟨records, h, hall, hend⟩

end BlockStudio.Script
