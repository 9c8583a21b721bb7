import BlockStudio.Proofs.Defaults
import BlockStudio.Proofs.Harmless

/-!
Programs that were loaded into an editor. Loading trims the names of variables and drops those that
are taken, but a variable that is not there reads as zero. Main statement: a document with known
types is the same program with or without an editor just if its compiled blocks are explicit, and
then both are played alike.
-/
namespace BlockStudio

namespace Script

/-- Two states are the same but for variables that read as zero. -/
def State.ReadsAlike (s s' : State) : Prop :=
  ∃ values : Table Float, s' = { s with variableValues := values } ∧
    ∀ name, s'.read name = s.read name

namespace State.ReadsAlike
variable {s s' : State}

theorem world_eq (h : s.ReadsAlike s') : s'.world = s.world := by
  obtain ⟨values, rfl, -⟩ := h
  rfl

theorem holds_eq (h : s.ReadsAlike s') (c : Condition) : s'.holds c = s.holds c := by
  obtain ⟨values, -, hread⟩ := h
  rw [State.holds, State.holds, hread]

/-- What is written alike is read alike. -/
theorem insert (h : s.ReadsAlike s') (name : String) (value : Float) (change : World → World) :
    ({ s with
        variableValues := s.variableValues.insert name value
        world := change s.world } : State).ReadsAlike
      { s' with
        variableValues := s'.variableValues.insert name value
        world := change s'.world } := by
  obtain ⟨values, rfl, hread⟩ := h
  refine ⟨values.insert name value, rfl, fun name' => ?_⟩
  have hname := hread name'
  simp only [State.read] at hname ⊢
  simp only [Table.get?_insert]
  split
  · rfl
  · exact hname

theorem store (h : s.ReadsAlike s') (name : String) (value : Float) :
    (s.store name value).ReadsAlike (s'.store name value) := by
  simp only [State.store]
  split
  · exact h.insert name value fun w => { w with score := value }
  · exact h.insert name value id

theorem setScore (h : s.ReadsAlike s') (value : Float) :
    (s.setScore value).ReadsAlike (s'.setScore value) :=
  h.insert scoreVariable value fun w => { w with score := value }

variable {p : Program} {m : Moment} {origin : String}

theorem write (h : s.ReadsAlike s') (name : String) (value : Float) :
    (write p m none origin name value s).ReadsAlike (write p m none origin name value s') := by
  have hstore := h.store name value
  unfold Script.write
  split
  · exact hstore
  · obtain ⟨values, heq, hread⟩ := hstore
    dsimp only
    rw [heq] at hread ⊢
    exact ⟨values, rfl, hread⟩

theorem perform (h : s.ReadsAlike s') (e : Effect) :
    (perform p m none origin e s).ReadsAlike (perform p m none origin e s') := by
  cases e with
  | setVariable name value =>
    simp only [Script.perform]
    split
    · exact h
    · exact h.write name value
  | changeVariable name delta =>
    obtain ⟨values, heq, hread⟩ := h
    simp only [Script.perform, hread name]
    split
    · exact ⟨values, heq, hread⟩
    · exact State.ReadsAlike.write ⟨values, heq, hread⟩ name _
  | addScore amount =>
    simp only [Script.perform, h.world_eq]
    exact h.setScore _
  | setScore value => exact h.setScore value
  | setColor id color =>
    obtain ⟨values, rfl, hread⟩ := h
    simp only [Script.perform]
    split
    · split <;> exact ⟨values, rfl, hread⟩
    · exact ⟨values, rfl, hread⟩
  | _ =>
    obtain ⟨values, rfl, hread⟩ := h
    exact ⟨values, rfl, hread⟩

theorem fault (h : s.ReadsAlike s') (action : ActionKind) (message : String) :
    (s.fault m origin action message).ReadsAlike (s'.fault m origin action message) := by
  obtain ⟨values, rfl, hread⟩ := h
  exact ⟨values, rfl, hread⟩

theorem act (h : s.ReadsAlike s') (a : Action) (here : Stack) :
    ∃ t', act p m none origin a here s' = (act p m none origin a here s).map (fun _ => t') ∧
      (act p m none origin a here s).state.ReadsAlike t' := by
  cases a with
  | effect e => exact ⟨_, rfl, h.perform e⟩
  | call name =>
    simp only [Script.act]
    split
    · exact ⟨s', rfl, h⟩
    · split
      · exact ⟨s', rfl, h⟩
      · exact ⟨_, rfl, h.fault _ _⟩
  | whenTrue c body =>
    simp only [Script.act, h.holds_eq]
    exact ⟨s', rfl, h⟩
  | choose c body otherwise =>
    simp only [Script.act, h.holds_eq]
    exact ⟨s', rfl, h⟩
  | chance percent body =>
    obtain ⟨values, rfl, hread⟩ := h
    exact ⟨_, rfl, values, rfl, hread⟩
  | _ => exact ⟨s', rfl, h⟩

/-- A step of a run does the same in states that read alike. -/
theorem advance (h : s.ReadsAlike s') (stack : Stack) :
    ∃ t', advance p m none origin stack s' = (advance p m none origin stack s).map (fun _ => t') ∧
      (Script.advance p m none origin stack s).state.ReadsAlike t' := by
  unfold Script.advance
  split
  · exact ⟨s', rfl, h⟩
  · exact ⟨s', rfl, h⟩
  · exact h.act _ _
  · split
    · exact ⟨s', rfl, h⟩
    · split <;> exact ⟨s', rfl, h⟩
  · rw [h.holds_eq]
    split
    · exact ⟨s', rfl, h⟩
    · split <;> exact ⟨s', rfl, h⟩

theorem watchedWrite?_eq (h : s.ReadsAlike s') (stack : Stack) :
    watchedWrite? p s' stack = watchedWrite? p s stack := by
  have hwrite : ∀ e : Effect, e.write? s' = e.write? s := by
    obtain ⟨values, -, hread⟩ := h
    intro e
    cases e <;> simp only [Effect.write?, hread]
  unfold watchedWrite?
  split
  · rw [hwrite]
  · rfl

theorem emit (h : s.ReadsAlike s') (content : EventContent) :
    (s.emit content).ReadsAlike (s'.emit content) := by
  obtain ⟨values, rfl, hread⟩ := h
  refine ⟨values, rfl, fun name => ?_⟩
  rw [State.read, State.emit, State.read, State.emit]
  exact hread name

theorem launch {a : Agenda} (h : a.state.ReadsAlike s') (origin : String) (actions : List Action)
    (duties : List Duty) : ∃ t', (a.inState s').launch origin actions duties =
      (a.launch origin actions duties).inState t' ∧
      (a.launch origin actions duties).state.ReadsAlike t' := by
  obtain ⟨values, rfl, hread⟩ := h
  exact ⟨_, rfl, values, rfl, hread⟩

theorem leave {a : Agenda} (h : a.state.ReadsAlike s') (entry : Entry)
    (rest : Option (Wake × Stack)) :
    ∃ t', (a.inState s').leave entry rest = (a.leave entry rest).inState t' ∧
      (a.leave entry rest).state.ReadsAlike t' := by
  cases entry with
  | resumed t => exact ⟨s', rfl, h⟩
  | launched id origin _ =>
    obtain ⟨values, rfl, hread⟩ := h
    cases rest with
    | none => exact ⟨_, rfl, values, rfl, hread⟩
    | some rest => exact ⟨_, rfl, values, rfl, hread⟩

/-- A step of an agenda does the same in states that read alike. -/
theorem next (p : Program) (m : Moment) {a : Agenda} (h : a.state.ReadsAlike s') :
    ∃ t', (a.inState s').next p m = (a.next p m).inState t' ∧ (a.next p m).state.ReadsAlike t' := by
  obtain ⟨duties, nesting, kept, ran, s⟩ := a
  cases duties with
  | nil => exact ⟨s', rfl, h⟩
  | cons duty duties =>
    cases duty with
    | run entry stack =>
      have hunread := h.watchedWrite?_eq (p := p) stack
      cases hw : (if nesting < p.limits.maxCallDepth then watchedWrite? p s stack else none) with
      | some w =>
        refine ⟨s'.store w.name w.value, ?_, ?_⟩
        · simp only [Agenda.next, Agenda.goOn, Agenda.inState, hunread, hw]
        · simp only [Agenda.next, Agenda.goOn, hw]
          exact h.store w.name w.value
      | none =>
        have hw' : (if nesting < p.limits.maxCallDepth then watchedWrite? p s' stack else none) =
            none := by
          rw [hunread, hw]
        obtain ⟨t', hadvance, ht⟩ := @advance s s' p m entry.origin h stack
        rw [Agenda.inState, next_run_of_unwatched duties kept ran hw',
          next_run_of_unwatched duties kept ran hw, hadvance]
        cases hstep : Script.advance p m none entry.origin stack s with
        | running stack t =>
          rw [hstep] at ht
          exact ⟨t', rfl, ht⟩
        | suspended wake stack t =>
          rw [hstep] at ht
          exact State.ReadsAlike.leave (a := ⟨duties, nesting, kept, ran, t⟩) ht entry _
        | finished t =>
          rw [hstep] at ht
          exact State.ReadsAlike.leave (a := ⟨duties, nesting, kept, ran, t⟩) ht entry _
    | watch name lists =>
      cases lists with
      | nil => exact ⟨s', rfl, h⟩
      | cons actions lists =>
        exact State.ReadsAlike.launch (a := ⟨_, nesting, kept, ran, s⟩) h _ actions _
    | start announced lists =>
      cases lists with
      | nil => exact ⟨s', rfl, h⟩
      | cons e lists =>
        cases announced with
        | false => exact State.ReadsAlike.launch (a := ⟨_, nesting, kept, ran, s⟩) h e.1 e.2 _
        | true =>
          exact State.ReadsAlike.launch (a := ⟨_, nesting, kept, ran, s.emit _⟩)
            (h.emit (.triggerFired e.1)) e.1 e.2 _
    | resume waiting =>
      obtain ⟨values, rfl, hread⟩ := h
      cases waiting with
      | nil => exact ⟨_, rfl, values, rfl, hread⟩
      | cons t waiting =>
        simp only [Agenda.next, Agenda.inState]
        split <;> exact ⟨_, rfl, values, rfl, hread⟩
    | _ =>
      obtain ⟨values, rfl, hread⟩ := h
      exact ⟨_, rfl, values, rfl, hread⟩

/-- A variable that reads as zero may be there or not. -/
theorem harmless : Harmless State.ReadsAlike where
  score_eq h := by rw [h.world_eq]
  touches_eq h := by rw [h.world_eq]
  keys_eq h := by rw [h.world_eq]
  addTimer t := by
    rintro ⟨values, rfl, hread⟩
    exact ⟨values, rfl, hread⟩
  ageOverlay dt := by
    rintro ⟨values, rfl, hread⟩
    exact ⟨values, rfl, hread⟩
  mirrorScore := by
    rintro s s' h
    have hscore : s'.mirrorScore =
        { s' with variableValues := s'.variableValues.insert scoreVariable s.world.score } := by
      rw [State.mirrorScore, h.world_eq]
    rw [hscore]
    exact h.insert scoreVariable s.world.score id
  next p m _ _ h := h.next p m

end State.ReadsAlike

end Script

/-- The table that gives each of some names the same value. -/
theorem Table.get?_ofList_map {α : Type} (names : List String) (value : α) (key : String) :
    (ofList (names.map (·, value))).get? key = if key ∈ names then some value else none := by
  induction names using List.reverseRecOn with
  | nil => rfl
  | append_singleton names name ih =>
    have hinsert : ofList ((names ++ [name]).map (·, value)) =
        (ofList (names.map (·, value))).insert name value := by
      simp [ofList]
    rw [hinsert, get?_insert, ih]
    by_cases hkey : key = name <;> simp [hkey]

namespace Graph
variable {g : Graph}

theorem mem_variableNames_addDocumentVariable {given name : String} :
    name ∈ (g.addDocumentVariable given).variableNames ↔
      name ∈ g.variableNames ∨ (name ≠ "" ∧ Text.trim given = name) := by
  simp only [addDocumentVariable, declare, String.isEmpty_iff, List.contains_iff_mem]
  split_ifs with hempty htaken <;> grind

/-- A loaded document declares the trimmed names that are not empty. -/
theorem mem_variableNames_load (g : Graph) (d : Document) {name : String} :
    name ∈ (g.load d).variableNames ↔ name ≠ "" ∧ ∃ given ∈ d.variableNames,
    Text.trim given = name := by
  have hnames : ∀ (names : List String) (g : Graph), name ∈
      (names.foldl addDocumentVariable g).variableNames ↔
      name ∈ g.variableNames ∨ (name ≠ "" ∧ ∃ given ∈ names, Text.trim given = name) := by
    intro names
    induction names with
    | nil => simp
    | cons given names ih =>
      intro g
      rw [List.foldl_cons, ih, mem_variableNames_addDocumentVariable]
      simp only [List.exists_mem_cons_iff]
      tauto
  rw [load, variableNames_addDocumentChains, hnames]
  simp [clear]

end Graph

/-- The names of the variables are as an editor keeps them, but for repetitions. -/
def Document.NamesFit (d : Document) : Prop :=
  ∀ name ∈ d.variableNames, Text.trim name = name ∧ name ≠ ""

instance (d : Document) : Decidable d.NamesFit :=
  inferInstanceAs (Decidable (∀ name ∈ d.variableNames, _))

namespace Script
namespace Engine

theorem read_initial (e : Engine) (d : Document) (w : World) (name : String) :
    (e.initial d w).read name = 0 := by
  rw [State.read, initial, Table.get?_ofList_map]
  split <;> rfl

/-- All documents begin alike. -/
theorem initial_readsAlike (e : Engine) (d d' : Document) (w : World) :
    (e.initial d w).ReadsAlike (e.initial d' w) :=
  ⟨_, rfl, fun name => by rw [read_initial, read_initial]⟩

/-- A loaded document begins with the same variables just if their names fit. -/
theorem initial_load_eq_iff (e : Engine) (g : Graph) (d : Document) (w : World) :
    e.initial (g.load d).toDocument w = e.initial d w ↔ d.NamesFit := by
  have hnames : (g.load d).toDocument.variableNames = (g.load d).variableNames := rfl
  constructor
  · intro h name hname
    have htable : (e.initial (g.load d).toDocument w).variableValues.get? name =
        (e.initial d w).variableValues.get? name := by rw [h]
    simp only [initial, Table.get?_ofList_map, if_pos hname, hnames, ite_eq_left_iff,
      reduceCtorEq, imp_false, not_not] at htable
    obtain ⟨hne, given, -, htrim⟩ := (g.mem_variableNames_load d).mp htable
    refine ⟨?_, hne⟩
    rw [← htrim, Text.trim_trim]
  · intro h
    have htable : Table.ofList ((g.load d).toDocument.variableNames.map (·, (0 : Float))) =
        .ofList (d.variableNames.map (·, 0)) := by
      refine Table.ext_get? fun name => ?_
      rw [Table.get?_ofList_map, Table.get?_ofList_map, hnames]
      refine if_congr ?_ rfl rfl
      rw [Graph.mem_variableNames_load]
      constructor
      · rintro ⟨-, given, hgiven, rfl⟩
        rwa [(h given hgiven).1]
      · intro hname
        exact ⟨(h name hname).2, name, hname, (h name hname).1⟩
    rw [initial, initial, htable]

theorem play_eq_of_initial {e : Engine} {d d' : Document} {w : World}
    (hhandlers : Handler.ofDocument d' = Handler.ofDocument d) (h : e.initial d' w = e.initial d w)
    (beats : List Beat) : e.play d' w beats = e.play d w beats := by
  have htable : Table.ofList (d'.variableNames.map (·, (0 : Float))) =
      .ofList (d.variableNames.map (·, 0)) :=
    congrArg State.variableValues h
  simp only [play, start, Session.begin, hhandlers, htable]

/-- A document of known blocks is the same program with and without an editor just if it is
explicit, and has the same variables just if their names fit. Then an engine plays both alike: all
is the same but for variables that read as zero, and if the names fit all is the same. -/
theorem load_keeps_meaning_iff {d : Document} (h : d.Known) (g : Graph) :
    (Handler.ofDocument (g.load d).toDocument = Handler.ofDocument d ↔ d.Explicit) ∧
      (∀ (e : Engine) (w : World), e.initial (g.load d).toDocument w = e.initial d w ↔ d.NamesFit) ∧
      (d.Explicit → ∀ (e : Engine) (w : World) (beats : List Beat),
        Follows State.ReadsAlike (e.play d w beats) (e.play (g.load d).toDocument w beats) ∧
          (d.NamesFit → e.play (g.load d).toDocument w beats = e.play d w beats)) := by
  have hhandlers := Handler.ofDocument_load_iff h g
  refine ⟨hhandlers, fun e w => e.initial_load_eq_iff g d w,
    fun hexplicit e w beats => ⟨?_, fun hnames => ?_⟩⟩
  · have hbeats : List.Forall₂ (Beat.Agrees State.ReadsAlike) beats beats :=
      List.forall₂_same.mpr fun b _ => ⟨rfl, by
        rintro s _ ⟨values, rfl, hread⟩
        exact ⟨values, rfl, hread⟩⟩
    exact State.ReadsAlike.harmless.play rfl (hhandlers.mpr hexplicit)
      (e.initial_readsAlike d _ w) hbeats
  · exact play_eq_of_initial (hhandlers.mpr hexplicit)
      ((e.initial_load_eq_iff g d w).mpr hnames) beats

/-- A document whose script says how much it adds to a variable. -/
def addingDocument : Document :=
  ⟨[⟨1, 0, 0, [⟨(), "on_start", .empty, none, none⟩,
      ⟨(), "change_var", .ofList [("delta", "5"), ("var", "x")], none, none⟩]⟩], ["x"]⟩

theorem load_keeps_meaning_addingDocument :
    addingDocument.Known ∧ addingDocument.Explicit ∧ addingDocument.NamesFit ∧
      ∀ (e : Engine) (w : World) (beats : List Beat),
        e.play (Graph.empty.load addingDocument).toDocument w beats =
          e.play addingDocument w beats := by
  have hknown : addingDocument.Known := by
    simp only [Document.Known, addingDocument, List.forall_mem_singleton, Block.KnownList,
      Block.Known, Block.KnownSlot]
    decide
  have hnames : addingDocument.NamesFit := by decide
  obtain ⟨hhandlers, -, hplay⟩ := load_keeps_meaning_iff hknown .empty
  have hexplicit := hhandlers.mp rfl
  exact ⟨hknown, hexplicit, hnames, fun e w beats => (hplay hexplicit e w beats).2 hnames⟩

/-- A document whose script does not say how much it adds. -/
def terseDocument : Document :=
  ⟨[⟨1, 0, 0, [⟨(), "on_start", .empty, none, none⟩,
    ⟨(), "change_var", .ofList [("var", "x")], none, none⟩]⟩], ["x"]⟩

/-- A document without chains that declares a name with blanks around it. -/
def blankDocument : Document := ⟨[], [" x "]⟩

/-- A loaded script adds one where the script itself adds nothing, and a loaded document has another
variable. -/
theorem load_changes_meaning :
    let e : Engine := .ofSeed .standard 7
    let direct := e.start terseDocument .empty
    let loaded := e.start (Graph.empty.load terseDocument).toDocument .empty
    terseDocument.Known ∧
      Handler.ofDocument (Graph.empty.load terseDocument).toDocument ≠
        Handler.ofDocument terseDocument ∧
      (direct.1.state direct.2).read "x" = 0 ∧ (loaded.1.state loaded.2).read "x" = 1 ∧
      blankDocument.Known ∧
      (e.start blankDocument .empty).1.session.map (·.variableValues.keys) = some [" x ", "score"] ∧
      (e.start (Graph.empty.load blankDocument).toDocument .empty).1.session.map
        (·.variableValues.keys) =
        some ["score", "x"] := by
  have hknown : terseDocument.Known := by
    simp only [Document.Known, terseDocument, List.forall_mem_singleton, Block.KnownList,
      Block.Known, Block.KnownSlot]
    decide
  refine ⟨hknown, ?_, by decide +kernel, by decide +kernel, by simp [Document.Known, blankDocument],
    by decide +kernel, by decide +kernel⟩
  have hloaded : Handler.ofDocument (Graph.empty.load terseDocument).toDocument =
    [⟨.start, [.effect (.changeVariable "x" 1)]⟩] := rfl
  have hdirect : Handler.ofDocument terseDocument = [⟨.start, [.effect (.changeVariable "x" 0)]⟩] :=
    rfl
  have hne : (1 : Float) ≠ 0 := by decide +kernel
  simp [hloaded, hdirect, hne]

end Engine

end Script

end BlockStudio
