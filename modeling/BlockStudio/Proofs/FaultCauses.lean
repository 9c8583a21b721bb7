import BlockStudio.Proofs.Nesting

/-!
What the faults of a game say about their causes. An action fails in one of three ways: the color of
an object is none, a call is too deep, or a write would start watchers that are too deep. Main
statement: a step records a fault just when the action that comes next fails, under the origin of
its task and the number of the frame, and the task goes on behind the action. The fault names the
kind of the action, except that a watched change of a variable is reported as if the variable had
been set.
-/
namespace BlockStudio.Script

/-- An action fails, with the message of its fault. Of the place where it stands `nesting` is how
deep watchers are nested, and `here` the stack without the action. -/
inductive Action.Fails (p : Program) (nesting : Nat) (here : Stack) (s : State) :
    Action → String → Prop
  | color {id color : String} {err : Color.Error} (hobject : s.world.objects.contains id = true)
    (hcolor : Color.ofText color = .error err) :
    Fails p nesting here s (.effect (.setColor id color))
      ("invalid color '" ++ color ++ "': " ++ err.message)
  | call {name : String} {body : List Action} (hbody : p.functions.get? name = some body)
    (hdeep : p.limits.maxCallDepth ≤ callDepth here) :
    Fails p nesting here s (.call name) ("call depth limit reached calling '" ++ name ++ "'")
  | watchers {e : Effect} {name : String} {value : Float} {lists : List (List Action)}
    (hwrite : e.write? s = some (name, value)) (hlists : p.watchers.get? name = some lists)
    (hdeep : p.limits.maxCallDepth ≤ nesting) :
    Fails p nesting here s (.effect e) ("watcher cascade limit reached on '" ++ name ++ "'")

/-- The kind that a fault of the action names. -/
def Action.blamed : Action → ActionKind
  | .effect (.changeVariable ..) => .setVar
  | a => a.kind

theorem Action.blamed_eq_kind_iff (a : Action) : a.blamed = a.kind ↔ a.kind ≠ .changeVar := by
  cases a with
  | effect e =>
    cases e with
    | setVisible _ visible => cases visible <;> simp [blamed, kind, Effect.kind]
    | _ => simp [blamed, kind, Effect.kind]
  | _ => simp [blamed, kind]

theorem Effect.blamed_of_write? {e : Effect} {s : State} {name : String} {value : Float}
    (h : e.write? s = some (name, value)) : (Action.effect e).blamed = .setVar := by
  cases e with
  | setVariable _ _ | changeVariable _ _ => rfl
  | _ => contradiction

/-- The fault of an action that fails with a message. -/
def NextAction.fault (n : NextAction) (m : Moment) (message : String) : Fault :=
  ⟨n.entry.origin, n.action.blamed, message, m.frame⟩

section
variable {p : Program} {m : Moment} {a : Agenda} {n : NextAction} {message : String}

theorem State.faults_store (s : State) (name : String) (value : Float) :
    (s.store name value).faults = s.faults := by
  simp only [store]
  split <;> rfl

theorem Action.Fails.withUnread {action : Action} {nesting : Nat} {here : Stack} {s : State}
    (h : action.Fails p nesting here s message) (x : Unread) :
    action.Fails p nesting here (s.withUnread x) message := by
  cases h with
  | color hobject hcolor => exact .color hobject hcolor
  | call hbody hdeep => exact .call hbody hdeep
  | watchers hwrite hlists hdeep =>
    exact .watchers ((Effect.write?_withUnread _ s x).trans hwrite) hlists hdeep

namespace Agenda

/-- The action that comes next fails. -/
def Fails (p : Program) (a : Agenda) (n : NextAction) (message : String) : Prop :=
  a.action? = some n ∧ n.action.Fails p a.nesting n.stack a.state message

theorem fails_unlogged_iff : a.unlogged.Fails p n message ↔ a.Fails p n message :=
  and_congr_right fun _ =>
    ⟨fun h => h.withUnread a.state.unread, fun h => h.withUnread a.unlogged.state.unread⟩

/-- After an action that fails its task goes on behind it, and one fault is added. -/
theorem Fails.next_eq (h : a.Fails p n message) :
    ∃ s, s.faults = a.state.faults.push (n.fault m message) ∧
    a.next p m = { a with duties := n.after, state := s } := by
  obtain ⟨hnext, hfails⟩ := h
  cases haction : n.action with
  | effect e =>
    rw [haction] at hfails
    cases hfails with
    | @color id color err hobject hcolor =>
      refine ⟨a.state.fault m n.entry.origin .setColor
        ("invalid color '" ++ color ++ "': " ++ err.message), ?_, ?_⟩
      · simp only [State.fault, NextAction.fault, haction, Action.blamed, Action.kind, Effect.kind]
      · refine next_of_action? hnext (fun e name value he hwrite _ => ?_) ?_
        · rw [haction] at he
          cases he
          contradiction
        · simp only [haction, act, perform, if_pos hobject, hcolor]
    | @watchers _ name value lists hwrite hlists hdeep =>
      refine ⟨_, ?_, next_of_refused hnext haction hwrite hlists hdeep⟩
      rw [State.fault, State.faults_store, NextAction.fault, haction,
        Effect.blamed_of_write? hwrite]
  | call name =>
    rw [haction] at hfails
    cases hfails with
    | call hbody hdeep =>
      refine ⟨_, ?_, (refusesCall hnext haction ?_ hdeep).next_eq⟩
      · rw [State.fault, NextAction.fault, haction]
        rfl
      · exact Option.isSome_iff_exists.2 ⟨_, hbody⟩
  | _ =>
    rw [haction] at hfails
    contradiction

end Agenda

/-- Effects that do not fail record nothing. -/
theorem faults_perform {origin : String} {e : Effect} {s : State}
    (hunwatched : ∀ name value, e.write? s = some (name, value) → p.watchers.get? name = none)
    (hcolor : ∀ id color err, e = .setColor id color → s.world.objects.contains id = true →
      Color.ofText color ≠ .error err) : (perform p m none origin e s).faults = s.faults := by
  cases hwrite : e.write? s with
  | some w =>
    rw [perform_of_write? none hwrite, write, hunwatched w.1 w.2 hwrite]
    exact s.faults_store _ _
  | none =>
    cases e with
    | setColor id color =>
      simp only [perform]
      split
      · rename_i hobject
        split
        · rfl
        · rename_i err herr
          exact absurd herr (hcolor id color err rfl hobject)
      · rfl
    | setVariable name _ | changeVariable name _ =>
      by_cases hname : name.isEmpty = true
      · simp only [perform, if_pos hname]
      · simp [Effect.write?, hname] at hwrite
    | _ => rfl

/-- A step of a run records nothing, if the action that comes first does not fail. -/
theorem faults_advance {origin : String} {nesting : Nat} {stack : Stack} {s : State}
    (hquiet : (if nesting < p.limits.maxCallDepth then watchedWrite? p s stack else none) = none)
    (h : ∀ action rest isCall below message, stack = .sequence (action :: rest) isCall :: below →
      ¬action.Fails p nesting (.sequence rest isCall :: below) s message) :
    (advance p m none origin stack s).state.faults = s.faults := by
  unfold advance
  split
  · rfl
  · rfl
  · rename_i action rest isCall below
    have hfine := fun message => h action rest isCall below message rfl
    cases action with
    | effect e =>
      refine faults_perform (fun name value hwrite => ?_) fun id color err he hobject hcolor => ?_
      · rcases Nat.lt_or_ge nesting p.limits.maxCallDepth with hdeep | hdeep
        · exact Option.eq_none_iff_forall_not_mem.2
            (by simpa [hdeep, watchedWrite?, hwrite] using hquiet)
        · cases hlists : p.watchers.get? name with
          | none => rfl
          | some lists => exact absurd (.watchers hwrite hlists hdeep) (hfine _)
      · subst he
        exact hfine _ (.color hobject hcolor)
    | call name =>
      simp only [act]
      split
      · rfl
      · rename_i body hbody
        split
        · rfl
        · rename_i hdeep
          exact absurd (.call hbody (Nat.not_lt.1 hdeep)) (hfine _)
    | _ => rfl
  · split
    · rfl
    · split <;> rfl
  · split
    · rfl
    · split <;> rfl

namespace Agenda

theorem faults_leave (a : Agenda) (entry : Entry) (rest : Option (Wake × Stack)) :
    (a.leave entry rest).state.faults = a.state.faults := by
  cases entry with
  | resumed t => rfl
  | launched id origin actions => cases rest <;> rfl

/-- A step records nothing, if the action that comes next does not fail. -/
theorem faults_next_of_not_fails (h : ¬∃ n message, a.Fails p n message) :
    (a.next p m).state.faults = a.state.faults := by
  obtain ⟨duties, nesting, kept, ran, s⟩ := a
  cases duties with
  | nil => rfl
  | cons duty duties =>
    cases duty with
    | run entry stack =>
      cases hw : (if nesting < p.limits.maxCallDepth then watchedWrite? p s stack else none) with
      | some w =>
        obtain ⟨hdeep, hwatched⟩ : nesting < p.limits.maxCallDepth ∧
            watchedWrite? p s stack = some w := by
          simpa using hw
        rw [next_run_of_watched duties kept ran hdeep hwatched]
        exact s.faults_store _ _
      | none =>
        have hadvance : (advance p m none entry.origin stack s).state.faults = s.faults :=
          faults_advance hw fun action rest isCall below message hstack hfails =>
            h ⟨⟨entry, action, .sequence rest isCall :: below, duties⟩, message,
              by rw [hstack]; rfl, hfails⟩
        rw [next_run_of_unwatched duties kept ran hw]
        cases hstep : advance p m none entry.origin stack s with
        | running stack' s' => rwa [hstep] at hadvance
        | suspended wake stack' s' =>
          rw [hstep] at hadvance
          exact (faults_leave _ _ _).trans hadvance
        | finished s' =>
          rw [hstep] at hadvance
          exact (faults_leave _ _ _).trans hadvance
    | watch name lists => cases lists <;> rfl
    | start announced lists =>
      cases lists with
      | nil => rfl
      | cons e lists =>
        cases announced with
        | false => rfl
        | true => simp only [next, launch, State.takeTaskId, State.emit, if_true]
    | resume waiting =>
      cases waiting with
      | nil => rfl
      | cons t waiting =>
        simp only [next]
        split <;> rfl
    | _ => rfl

theorem recorded_of_fails (h : a.Fails p n message) : a.recorded p m = [n.fault m message] := by
  obtain ⟨s, hfaults, hnext⟩ := (fails_unlogged_iff.2 h).next_eq (m := m)
  exact recorded_of_fault hnext hfaults

/-- A step records a fault just when the action that comes next fails. -/
theorem mem_recorded_iff {f : Fault} :
    f ∈ a.recorded p m ↔ ∃ n message, a.Fails p n message ∧ f = n.fault m message := by
  constructor
  · intro hf
    by_cases hfails : ∃ n message, a.Fails p n message
    · obtain ⟨n, message, hfails⟩ := hfails
      rw [recorded_of_fails hfails] at hf
      exact ⟨n, message, hfails, List.mem_singleton.1 hf⟩
    · have hfine : ¬∃ n message, a.unlogged.Fails p n message := by
        simpa only [fails_unlogged_iff] using hfails
      have hnone : a.recorded p m = [] := by
        rw [recorded, faults_next_of_not_fails hfine]
        rfl
      rw [hnone] at hf
      contradiction
  · rintro ⟨n, message, hfails, rfl⟩
    rw [recorded_of_fails hfails]
    exact List.mem_singleton_self _

theorem length_recorded_le (p : Program) (m : Moment) (a : Agenda) :
    (a.recorded p m).length ≤ 1 := by
  cases hrecorded : a.recorded p m with
  | nil => exact Nat.zero_le 1
  | cons f faults =>
    obtain ⟨n, message, hfails, -⟩ :=
      mem_recorded_iff.1 (hrecorded ▸ List.mem_cons_self : f ∈ a.recorded p m)
    rw [← hrecorded, recorded_of_fails hfails, List.length_singleton]

end Agenda

/-- The faults of a frame name their causes. A step records at most one fault, and just when the
action fails that comes next. Then the task of the action goes on with what follows it. -/
structure Record.NamesCauses (p : Program) (r : Record) : Prop where
  mem_recorded_iff : ∀ a ∈ r.agendas, ∀ f, f ∈ a.recorded p r.moment ↔
    ∃ n message, a.Fails p n message ∧ f = n.fault r.moment message
  length_recorded_le : ∀ a ∈ r.agendas, (a.recorded p r.moment).length ≤ 1
  named : ∀ a ∈ r.agendas, ∀ f ∈ a.recorded p r.moment, ∃ n, a.action? = some n ∧
    f.origin = n.entry.origin ∧ f.frame = r.moment.frame ∧
    (f.action = n.action.kind ↔ n.action.kind ≠ .changeVar)
  goesOn : ∀ earlier a later n message, r.agendas = earlier ++ a :: later → a.Fails p n message →
    ∃ b rest, later = b :: rest ∧ b.duties = n.after ∧ b.nesting = a.nesting

theorem Course.namesCauses {c : Agenda} {as : List Agenda} (h : Course p m a as c) :
    Record.NamesCauses p ⟨m, as⟩ where
  mem_recorded_iff _ _ _ := Agenda.mem_recorded_iff
  length_recorded_le a _ := a.length_recorded_le p m
  named a _ f hf := by
    obtain ⟨n, message, ⟨hnext, -⟩, rfl⟩ := Agenda.mem_recorded_iff.1 hf
    exact ⟨n, hnext, rfl, rfl, n.action.blamed_eq_kind_iff⟩
  goesOn earlier b later n message hsplit hfails := by
    change as = _ at hsplit
    subst hsplit
    obtain ⟨s, -, hnext⟩ := hfails.next_eq (m := m)
    cases h.onward with
    | next _ hrest =>
      rw [hnext] at hrest
      cases hrest with
      | done hnil => contradiction
      | next _ _ => exact ⟨_, _, rfl, rfl, rfl⟩

/-- Where steps lead while duties are left is on the course. -/
theorem Course.iterate_mem {c : Agenda} {as : List Agenda} (h : Course p m a as c) (k : Nat)
    (hk : ((Agenda.next p m)^[k] a).duties ≠ []) : (Agenda.next p m)^[k] a ∈ as := by
  induction k generalizing a as with
  | zero =>
    cases h with
    | done hnil => contradiction
    | next _ _ => exact List.mem_cons_self
  | succ k ih =>
    cases h with
    | done hnil =>
      rw [Agenda.iterate_next_of_done hnil] at hk
      contradiction
    | next _ hrest => exact List.mem_cons_of_mem _ (ih hrest hk)

end

namespace Engine
variable {e : Engine} {d : Document} {w : World} {beats : List Beat} {records : List Record}

/-- The moment of a frame is the one that the engine shows after it. -/
theorem Recorded.moment_eq (h : e.Recorded d w beats records) {i : Nat} {r : Record}
    (hr : records[i]? = some r) :
    r.moment = (e.play d w (beats.take i)).1.moment := by
  induction h with
  | start _ =>
    cases i with
    | zero =>
      obtain rfl := Option.some.inj hr
      rfl
    | succ i => contradiction
  | @update beats records as c s b hearlier hs h ih =>
    have hlength := hearlier.length_eq
    rcases Nat.lt_or_ge i records.length with hi | hi
    · rw [List.getElem?_append_left hi] at hr
      rw [List.take_append_of_le_length (by omega)]
      exact ih hr
    · obtain rfl : i = records.length := by
        have hlt := (List.getElem?_eq_some_iff.1 hr).1
        rw [List.length_append, List.length_singleton] at hlt
        omega
      rw [List.getElem?_concat_length] at hr
      obtain rfl := Option.some.inj hr
      rw [List.take_of_length_le (by rw [List.length_append, List.length_singleton, hlength]),
        play_concat, beat_of_session hs]
      rfl

end Engine

/-- Every fault names its cause, but for one kind of action. In every play of every document,
whatever the game does between the frames, the log holds what the steps record, in order, in the
frame that the engine counts. A step records a fault just when the action fails that comes next, at
any depth of watchers and calls. The fault carries the origin of the task and the kind of the
action, unless the action changes a variable: then it is named as one that sets a variable. The task
goes on behind the action. -/
theorem Engine.play_namesFaultCauses (e : Engine) (d : Document) (w : World) (beats : List Beat) :
    ∃ records, e.Recorded d w beats records ∧
      (e.play d w beats).1.faults =
        (records.flatMap (Record.faults (e.programOf d))).foldl .push .empty ∧
      (∀ i r, records[i]? = some r → r.moment = (e.play d w (beats.take i)).1.moment) ∧
      ∀ r ∈ records, r.NamesCauses (e.programOf d) := by
  obtain ⟨records, h⟩ := e.exists_recorded d w beats
  refine ⟨records, h, h.faults_eq, fun i r hr => h.moment_eq hr, fun r hr => ?_⟩
  obtain ⟨a, c, hcourse, -⟩ := h.exists_course hr
  exact hcourse.namesCauses

def changeBlock : Block Unit :=
  ⟨(), "change_var", .ofList [("var", "x"), ("delta", "1")], none, none⟩

/-- A document whose script counts a variable up, and so does the watcher of the variable. -/
def countingDocument : Document where
  chains := [
    ⟨1, 0, 0, [⟨(), "on_start", .empty, none, none⟩, changeBlock]⟩,
    ⟨2, 0, 80, [⟨(), "on_var_change", .ofList [("var", "x")], none, none⟩, changeBlock]⟩]
  variableNames := ["x"]

/-- The watcher changes the variable once more than the limit allows, and the fault says that it was
set. -/
theorem Engine.change_reported_as_set :
    let e : Engine := .ofSeed ⟨10000, 100, 1⟩ 7
    ∃ r a n f, e.Recorded countingDocument .empty [] [r] ∧ a ∈ r.agendas ∧ a.action? = some n ∧
      f ∈ a.recorded (e.programOf countingDocument) r.moment ∧ n.action.kind = .changeVar ∧
      f.action = .setVar := by
  intro e
  let p : Program := e.programOf countingDocument
  let begun : Agenda := .ofBegin countingDocument e.lastTaskId e.random .empty
  let a : Agenda := (Agenda.next p .start)^[3] begun
  obtain ⟨ran, hreach⟩ := reaches_begin e.limits countingDocument e.lastTaskId e.random .empty
  obtain ⟨as, h⟩ := Course.exists_of_reaches hreach rfl
  let n : NextAction := ⟨.launched 2 (Trigger.changeLabel "x") (compileList [changeBlock]),
    .effect (.changeVariable "x" (number changeBlock "delta")), [.sequence [] false],
    [.watch "x" [],
      .run (.launched 1 (Trigger.label .start) (compileList [changeBlock])) [.sequence [] false],
      .start false []]⟩
  have hnext : a.action? = some n := rfl
  have hwrite : Effect.write? a.state (.changeVariable "x" (number changeBlock "delta")) =
      some ("x", a.state.read "x" + number changeBlock "delta") := rfl
  have hlists : p.watchers.get? "x" = some [compileList [changeBlock]] := rfl
  have hfails : a.Fails p n ("watcher cascade limit reached on '" ++ "x" ++ "'") :=
    ⟨hnext, .watchers hwrite hlists (Nat.le_refl 1)⟩
  exact ⟨⟨.start, as⟩, a, n, _, .start h, h.iterate_mem 3 (List.cons_ne_nil _ _), hnext,
    Agenda.mem_recorded_iff.2 ⟨n, _, hfails, rfl⟩, rfl, rfl⟩

end BlockStudio.Script
