import BlockStudio.Proofs.Bindings
import BlockStudio.Proofs.UnfoldedPlays

/-!
Documents in which one block is replaced: a call by the body of the function, or a loop by the
copies of its body that it runs. The handlers of such a document are those of the old one with
unfolded action lists. Main statement: the two documents play alike.
-/
namespace BlockStudio

/-- One block of a list, at any depth, is replaced by some blocks as a rule says. -/
inductive ReplacedIn (rule : Node → List Node → Prop) : List Node → List Node → Prop
  | here (before after : List Node) {b : Node} {bs : List Node} (h : rule b bs) :
    ReplacedIn rule (before ++ b :: after) (before ++ (bs ++ after))
  | within (before after : List Node) (s : Slot) {b b' : Node} {bs bs' : List Node}
    (hslot : b.slot s = some bs) (hb : b.modifySlot? s (fun _ => bs') = some b')
    (h : ReplacedIn rule bs bs') :
    ReplacedIn rule (before ++ b :: after) (before ++ b' :: after)

/-- One block of a chain is replaced, but not the first. -/
inductive ReplacedInChain (rule : Node → List Node → Prop) : List Node → List Node → Prop
  | rest (head : Node) {rest rest' : List Node} (h : ReplacedIn rule rest rest') :
    ReplacedInChain rule (head :: rest) (head :: rest')
  | head (s : Slot) {head head' : Node} {bs bs' : List Node} (rest : List Node)
    (hslot : head.slot s = some bs) (hhead : head.modifySlot? s (fun _ => bs') = some head')
    (h : ReplacedIn rule bs bs') :
    ReplacedInChain rule (head :: rest) (head' :: rest)

namespace Document

/-- One block of a document is replaced, but not the first of its chain. -/
inductive Replaced (rule : Node → List Node → Prop) : Document → Document → Prop
  | chain (before after : List DocumentChain) (variableNames : List String) {c : DocumentChain}
    {blocks : List Node} (h : ReplacedInChain rule c.blocks blocks) :
    Replaced rule ⟨before ++ c :: after, variableNames⟩
      ⟨before ++ { c with blocks } :: after, variableNames⟩

/-- The body of a function, if the chain defines it. -/
def bodyIn? (name : String) (c : DocumentChain) : Option (List Node) :=
  match c.blocks with
  | [] => none
  | head :: rest => if Script.Trigger.ofBlock? head = some (.function name) then some rest else none

/-- The body of the last definition of a function. -/
def body? (d : Document) (name : String) : Option (List Node) :=
  (d.chains.filterMap (bodyIn? name)).getLast?

/-- The rounds that a counted loop runs. -/
def rounds (limits : Script.Limits) (b : Node) : Nat :=
  min (Number.toNatSaturating (Script.positivePart (Script.number b "times"))) limits.loopCeiling

/-- A block and the blocks that it stands for: a call stands for the body of the function, and a
counted loop that does not hand control back for the copies of its body. -/
inductive StandsFor (d : Document) (limits : Script.Limits) : Node → List Node → Prop
  | call {b : Node} {body : List Node} (hkind : BlockKind.ofName? b.type = some .callFunc)
    (hbody : d.body? (Script.nameIn b "name") = some body) : StandsFor d limits b body
  | loop {b : Node} (hkind : BlockKind.ofName? b.type = some .repeatN)
    (hinterval : limits.loopYieldInterval = 0 ∨ rounds limits b ≤ limits.loopYieldInterval) :
    StandsFor d limits b (List.replicate (rounds limits b) (b.children.getD [])).flatten

end Document

namespace Script

theorem compileBlock?_eq {ι : Type} (b : Block ι) :
    compileBlock? b =
      actionOf? b (compileSlot b.children) (compileSlot b.elseChildren) b.type := by
  cases b
  rw [compileBlock?]

theorem compileSlot_eq {ι : Type} (bs : Option (List (Block ι))) :
    compileSlot bs = compileList (bs.getD []) := by
  cases bs with
  | none => simp [compileSlot, compileList]
  | some bs => simp [compileSlot]

theorem compileList_append {ι : Type} (bs cs : List (Block ι)) :
    compileList (bs ++ cs) = compileList bs ++ compileList cs := by
  induction bs with
  | nil => simp [compileList]
  | cons b bs ih => simp [compileList, ih]

theorem compileList_copies {ι : Type} (n : Nat) (bs : List (Block ι)) :
    compileList (List.replicate n bs).flatten = (List.replicate n (compileList bs)).flatten := by
  induction n with
  | zero => simp [compileList]
  | succ n ih => rw [List.replicate_succ, List.replicate_succ, List.flatten_cons, List.flatten_cons,
      compileList_append, ih]

section
variable {ι ι' : Type} {b : Block ι} {b' : Block ι'}

theorem value_of_values (h : b'.values = b.values) (key : String) : b'.value key = b.value key := by
  rw [Block.value, Block.value, h]

theorem number_of_values (h : b'.values = b.values) (key : String) :
    number b' key = number b key := by
  rw [number, number, value_of_values h]

theorem nameIn_of_values (h : b'.values = b.values) (key : String) :
    nameIn b' key = nameIn b key := by
  rw [nameIn, nameIn, value_of_values h]

theorem conditionOf_of_values (h : b'.values = b.values) : conditionOf b' = conditionOf b := by
  simp only [conditionOf, nameIn_of_values h, value_of_values h, number_of_values h]

/-- The action of a type reads the values of the block only. -/
theorem actionOf?_of_values (h : b'.values = b.values) (body otherwise : List Action) :
    actionOf? b' body otherwise = actionOf? b body otherwise := by
  have heffect : effectOf? b' = effectOf? b := by
    funext type
    simp only [effectOf?, nameIn_of_values h, value_of_values h, number_of_values h]
  funext type
  simp only [actionOf?, conditionOf_of_values h, number_of_values h, nameIn_of_values h, heffect]

end

section
variable {p : Program}

/-- The action of a block unfolds when its slots do. -/
theorem actionOf?_unfolds {b b' : Node} (hvalues : b'.values = b.values)
    {body body' otherwise otherwise' : List Action} (hbody : Unfolds p body body')
    (hotherwise : Unfolds p otherwise otherwise') (type : String) :
    Unfolds p (actionOf? b body otherwise type).toList
      (actionOf? b' body' otherwise' type).toList := by
  rw [actionOf?_of_values hvalues]
  unfold actionOf?
  split
  case h_3 => exact .whenTrue _ hbody .nil
  case h_4 => exact .choose _ hbody hotherwise .nil
  case h_5 => exact .chance _ hbody .nil
  case h_6 => exact .repeatTimes _ hbody .nil
  case h_7 => exact .repeatWhile _ hbody .nil
  all_goals exact .refl p _

theorem compileBlock?_unfolds {b b' : Node} {s : Slot} {bs bs' : List Node}
    (hslot : b.slot s = some bs) (hb : b.modifySlot? s (fun _ => bs') = some b')
    (h : Unfolds p (compileList bs) (compileList bs')) :
    Unfolds p (compileBlock? b).toList (compileBlock? b').toList := by
  obtain ⟨id, type, values, children, elseChildren⟩ := b
  rw [compileBlock?_eq, compileBlock?_eq]
  cases s with
  | thenSlot =>
    obtain rfl : children = some bs := hslot
    obtain rfl : _ = b' := Option.some.inj hb
    exact actionOf?_unfolds rfl h (.refl p _) type
  | elseSlot =>
    obtain rfl : elseChildren = some bs := hslot
    obtain rfl : _ = b' := Option.some.inj hb
    exact actionOf?_unfolds rfl (.refl p _) h type

/-- Replacing a block unfolds the actions of a list, if the rule unfolds the action of the block. -/
theorem compileList_unfolds {rule : Node → List Node → Prop}
    (hrule : ∀ b bs, rule b bs → Unfolds p (compileBlock? b).toList (compileList bs))
    {bs bs' : List Node} (h : ReplacedIn rule bs bs') :
    Unfolds p (compileList bs) (compileList bs') := by
  induction h with
  | here before after h =>
    rw [compileList_append, compileList_append, compileList, compileList_append]
    exact .append (.refl p _) (.append (hrule _ _ h) (.refl p _))
  | within before after s hslot hb _ ih =>
    rw [compileList_append, compileList_append, compileList, compileList]
    exact .append (.refl p _) (.append (compileBlock?_unfolds hslot hb ih) (.refl p _))

/-- The handlers of two chains that differ in action lists only. -/
structure HandlerUnfolds (p : Program) (h h' : Handler) : Prop where
  trigger : h'.trigger = h.trigger
  actions : Unfolds p h.actions h'.actions

theorem filterMap_handlers {α β : Type} {R : α → β → Prop} {hs hs' : List Handler}
    {f : Handler → Option α} {g : Handler → Option β} (h : List.Forall₂ (HandlerUnfolds p) hs hs')
    (hfg : ∀ trigger actions actions', Unfolds p actions actions' →
      Option.Rel R (f ⟨trigger, actions⟩) (g ⟨trigger, actions'⟩)) :
    List.Forall₂ R (hs.filterMap f) (hs'.filterMap g) := by
  refine List.rel_filterMap ?_ h
  rintro ⟨trigger, actions⟩ ⟨trigger', actions'⟩ ⟨rfl, hactions⟩
  exact hfg _ _ _ hactions

/-- Where a list is taken from handlers under a name that the trigger gives, it is taken from those
that unfold them. -/
theorem labelled_unfolds {hs hs' : List Handler} (h : List.Forall₂ (HandlerUnfolds p) hs hs')
    {f : Handler → Option (String × List Action)}
    (hf : ∀ trigger, (∀ actions, f ⟨trigger, actions⟩ = none) ∨
      ∃ name, ∀ actions, f ⟨trigger, actions⟩ = some (name, actions)) :
    LabelledUnfolds p (hs.filterMap f) (hs'.filterMap f) := by
  refine filterMap_handlers h ?_
  intro trigger actions actions' hactions
  rcases hf trigger with hnone | ⟨name, hsome⟩
  · rw [hnone, hnone]
    exact .none
  · rw [hsome, hsome]
    exact .some ⟨rfl, hactions⟩

theorem ofChain?_unfolds {rule : Node → List Node → Prop}
    (hrule : ∀ b bs, rule b bs → Unfolds p (compileBlock? b).toList (compileList bs))
    (c : DocumentChain) {blocks : List Node} (h : ReplacedInChain rule c.blocks blocks) :
    Option.Rel (HandlerUnfolds p) (Handler.ofChain? c) (Handler.ofChain? { c with blocks }) := by
  unfold Handler.ofChain?
  generalize c.blocks = old at h
  have hmap : ∀ (trigger : Option Trigger) {rest rest' : List Node},
      Unfolds p (compileList rest) (compileList rest') →
      Option.Rel (HandlerUnfolds p) (trigger.map fun t => ⟨t, compileList rest⟩)
        (trigger.map fun t => ⟨t, compileList rest'⟩) := by
    intro trigger rest rest' hrest
    cases trigger with
    | none => exact .none
    | some trigger => exact .some ⟨rfl, hrest⟩
  cases h with
  | rest head h => exact hmap _ (compileList_unfolds hrule h)
  | @head s head head' bs bs' rest hslot hhead h =>
    have htrigger : Trigger.ofBlock? head' = Trigger.ofBlock? head := by
      cases s with
      | thenSlot =>
        obtain ⟨children, -, rfl⟩ := Option.map_eq_some_iff.1 hhead
        rfl
      | elseSlot =>
        obtain ⟨elseChildren, -, rfl⟩ := Option.map_eq_some_iff.1 hhead
        rfl
    simp only [htrigger]
    exact hmap _ (.refl p _)

theorem ofDocument_unfolds {rule : Node → List Node → Prop}
    (hrule : ∀ b bs, rule b bs → Unfolds p (compileBlock? b).toList (compileList bs))
    {d d' : Document} (h : d.Replaced rule d') :
    List.Forall₂ (HandlerUnfolds p) (Handler.ofDocument d) (Handler.ofDocument d') := by
  obtain ⟨before, after, variableNames, hchain⟩ := h
  rename_i c blocks
  have hsame : ∀ c, Option.Rel (HandlerUnfolds p) (Handler.ofChain? c) (Handler.ofChain? c) := by
    intro c
    cases Handler.ofChain? c with
    | none => exact .none
    | some h => exact .some ⟨rfl, .refl p _⟩
  have hchains : List.Forall₂
      (fun c c' => Option.Rel (HandlerUnfolds p) (Handler.ofChain? c) (Handler.ofChain? c'))
      (before ++ c :: after) (before ++ { c with blocks } :: after) :=
    List.rel_append (List.forall₂_same.2 fun c _ => hsame c)
      (.cons (ofChain?_unfolds hrule c hchain) (List.forall₂_same.2 fun c _ => hsame c))
  exact List.rel_filterMap (fun _ _ h => h) hchains

theorem grouped_related {α : Type} {R : α → α → Prop} {es es' : List (String × α)}
    (h : List.Forall₂ (fun e e' => e.1 = e'.1 ∧ R e.2 e'.2) es es') :
    (grouped es).Related (List.Forall₂ R) (grouped es') := by
  have hadd : ∀ (t t' : Table (List α)), t.Related (List.Forall₂ R) t' →
      (es.foldl addToGroup t).Related (List.Forall₂ R) (es'.foldl addToGroup t') := by
    induction h with
    | nil => exact fun _ _ ht => ht
    | @cons e e' _ _ he _ ih =>
      intro t t' ht
      obtain ⟨name, x⟩ := e
      obtain ⟨name', y⟩ := e'
      obtain ⟨rfl, hxy⟩ : name = name' ∧ R x y := he
      refine ih _ _ (Table.related_insert ht name (List.rel_append ?_ (.cons hxy .nil)))
      cases hname : t.get? name with
      | none => simp [Table.related_get?_none ht hname]
      | some xs =>
        obtain ⟨ys, hname', hxys⟩ := Table.related_get?_some ht hname
        simpa [hname'] using hxys
  exact hadd .empty .empty .nil

theorem bindings_related {es es' : List (String × List Action)} (h : LabelledUnfolds p es es') :
    (bindings es).Related (BindingUnfolds p) (bindings es') :=
  Table.related_mapValues (grouped_related h) fun _ _ _ hlists => ⟨hlists, rfl⟩

theorem timers_unfold {hs hs' : List Handler} (h : List.Forall₂ (HandlerUnfolds p) hs hs') :
    List.Forall₂ (fun t t' => t.1 = t'.1 ∧ t.2.1 = t'.2.1 ∧ Unfolds p t.2.2 t'.2.2)
      (hs.filterMap Handler.timer?) (hs'.filterMap Handler.timer?) := by
  refine filterMap_handlers h ?_
  intro trigger actions actions' hactions
  cases trigger <;> constructor
  exact ⟨rfl, rfl, hactions⟩

theorem addTimers_unfolds {timers timers' : List (Float × String × List Action)}
    (h : List.Forall₂ (fun t t' => t.1 = t'.1 ∧ t.2.1 = t'.2.1 ∧
      Unfolds p t.2.2 t'.2.2) timers timers')
    {s s' : State} (hs : StateUnfolds p s s') :
    StateUnfolds p (timers.foldl State.addTimer s) (timers'.foldl State.addTimer s') := by
  induction h generalizing s s' with
  | nil => exact hs
  | @cons t t' _ _ ht _ ih =>
    obtain ⟨seconds, origin, actions⟩ := t
    obtain ⟨seconds', origin', actions'⟩ := t'
    obtain ⟨rfl, rfl, hactions⟩ : seconds = seconds' ∧ origin = origin' ∧
        Unfolds p actions actions' := ht
    apply ih
    obtain ⟨hid, htaken⟩ := hs.takeTaskId
    simp only [State.addTimer, hid]
    exact htaken.keep _ _ (.some _ (.sequence false hactions .nil))

end

section
variable {limits : Limits} {d d' : Document}

theorem programUnfolds_ofHandlers {hs hs' : List Handler}
    (h : List.Forall₂ (HandlerUnfolds (.ofHandlers limits hs)) hs hs') :
    ProgramUnfolds (.ofHandlers limits hs) (.ofHandlers limits hs') := by
  have hfunctions :=
    labelled_unfolds h (f := Handler.function?) fun t => by cases t <;> simp [Handler.function?]
  have hwatchers :=
    labelled_unfolds h (f := Handler.watcher?) fun t => by cases t <;> simp [Handler.watcher?]
  exact ⟨rfl, Table.related_ofList hfunctions, grouped_related hwatchers⟩

/-- Two sessions that begin with documents of which the second unfolds the first begin in step. -/
theorem sessionUnfolds_begin
    (hd : List.Forall₂ (HandlerUnfolds (.ofHandlers limits (Handler.ofDocument d)))
      (Handler.ofDocument d) (Handler.ofDocument d'))
    (hvariables : d'.variableNames = d.variableNames) (lastTaskId : Nat)
    (random : Random) (world : World)
    (hshallow : (Agenda.ofBegin d lastTaskId random world).StaysShallow
      (.ofHandlers limits (Handler.ofDocument d)) .start) :
    SessionUnfolds (Session.begin limits d lastTaskId random world).1
        (Session.begin limits d' lastTaskId random world).1 ∧
      StateUnfolds (.ofHandlers limits (Handler.ofDocument d))
        (Session.begin limits d lastTaskId random world).2
        (Session.begin limits d' lastTaskId random world).2 := by
  have hp := programUnfolds_ofHandlers hd
  have hstarts := labelled_unfolds hd (f := Handler.start?) fun t => by
    cases t <;> simp [Handler.start?, Handler.labelled]
  have htouches :=
    labelled_unfolds hd (f := Handler.touch?) fun t => by cases t <;> simp [Handler.touch?]
  have hkeys := labelled_unfolds hd (f := Handler.key?) fun t => by cases t <;> simp [Handler.key?]
  have hscores : List.Forall₂ (ScoreUnfolds (.ofHandlers limits (Handler.ofDocument d)))
      ((Handler.ofDocument d).filterMap Handler.score?)
        ((Handler.ofDocument d').filterMap Handler.score?) := by
    refine filterMap_handlers hd ?_
    intro trigger actions actions' hactions
    cases trigger <;> constructor
    exact ⟨rfl, rfl, hactions, rfl⟩
  let fresh : State :=
    ⟨.ofList (d.variableNames.map (·, 0)), none, [], lastTaskId, .empty, random, world⟩
  have hfresh : StateUnfolds (.ofHandlers limits (Handler.ofDocument d)) fresh.mirrorScore
      fresh.mirrorScore :=
    ⟨[], .nil, rfl⟩
  have hstate := startAll_unfolds hp hstarts (addTimers_unfolds (timers_unfold hd) hfresh) hshallow
  simp only [Session.begin, hvariables]
  refine ⟨SessionUnfolds.withState ?_ hstate, hstate⟩
  exact ⟨hp, rfl, bindings_related htouches, bindings_related hkeys, hscores, rfl, rfl, .nil⟩

/-- The functions of a program are the last definitions in the document. -/
theorem get?_functions (limits : Limits) (d : Document) (name : String) :
    (Program.ofHandlers limits (Handler.ofDocument d)).functions.get? name =
      (d.body? name).map compileList := by
  have hchain : ∀ c : DocumentChain, ((Handler.ofChain? c).bind Handler.function?).bind
      (fun e => if e.1 = name then some e.2 else none) =
        (Document.bodyIn? name c).map compileList := by
    intro c
    unfold Handler.ofChain? Document.bodyIn?
    cases c.blocks with
    | nil => rfl
    | cons head rest =>
      simp only
      generalize Trigger.ofBlock? head = trigger
      rcases trigger with _ | ⟨_ | _ | _ | _ | _ | _ | defined⟩
      case some.function =>
        by_cases hname : defined = name <;> simp [Handler.function?, hname]
      all_goals rfl
  have hlists : ((Handler.ofDocument d).filterMap Handler.function?).filterMap
      (fun e => if e.1 = name then some e.2 else none) =
        (d.chains.filterMap (Document.bodyIn? name)).map compileList := by
    simp only [Handler.ofDocument, List.filterMap_filterMap, List.map_filterMap, hchain]
  rw [Program.ofHandlers, Table.get?_ofList, hlists, List.getLast?_map, Document.body?]

/-- The actions of the blocks that a block stands for unfold its action. -/
theorem Document.StandsFor.unfolds {b : Node} {bs : List Node}
    (h : Document.StandsFor d limits b bs) :
    Unfolds (.ofHandlers limits (Handler.ofDocument d))
      (compileBlock? b).toList (compileList bs) := by
  rw [compileBlock?_eq]
  cases h with
  | call hkind hbody =>
    have hfunction := get?_functions limits d (nameIn b "name")
    rw [hbody] at hfunction
    rw [← BlockKind.name_eq_of_ofName? hkind]
    simpa [BlockKind.name, actionOf?] using Unfolds.inline hfunction (.refl _ _) .nil
  | loop hkind hinterval =>
    rw [← BlockKind.name_eq_of_ofName? hkind, compileList_copies]
    have hunroll : Unfolds (.ofHandlers limits (Handler.ofDocument d))
        [.repeatTimes _ (compileList (b.children.getD []))]
        ((List.replicate (Document.rounds limits b) (compileList (b.children.getD []))).flatten ++
          []) :=
      .unroll hinterval (.refl _ _) .nil
    simpa [BlockKind.name, actionOf?, compileSlot_eq] using hunroll

end

namespace Engine

/-- Replacing a call by the body of the function, or a loop that does not hand control back by the
copies of its body, changes nothing that can be seen of a play, as long as the play records no fault
of a call. -/
theorem play_standsFor (e : Engine) {d d' : Document}
    (hd : d.Replaced (d.StandsFor e.limits) d') (w : World) (beats : List Beat)
    (h : e.NeverFaultsOnCall d w beats) :
    Indistinguishable (e.play d w beats) (e.play d' w beats) := by
  have hvariables : d'.variableNames = d.variableNames := by
    cases hd
    rfl
  have hhandlers := ofDocument_unfolds (fun _ _ hb => Document.StandsFor.unfolds hb) hd
  obtain ⟨hsession, hstate⟩ :=
    sessionUnfolds_begin hhandlers hvariables e.lastTaskId e.random w h.start.staysShallow
  have hstart : PlayUnfolds (e.start d w) (e.start d' w) := .of_resume e e hsession hstate
  exact (play_unfolds hstart beats h).indistinguishable

/-- A document that starts with a call of a function which waits. -/
def callingDocument : Document :=
  ⟨[⟨1, 0, 0, [⟨(), "on_start", .empty, none, none⟩,
    ⟨(), "call_func", .ofList [("name", "f")], none, none⟩]⟩,
    ⟨2, 0, 0, [⟨(), "define_func", .ofList [("name", "f")], none, none⟩,
    ⟨(), "wait", .ofList [("seconds", "0.5")], none, none⟩,
    ⟨(), "add_score", .ofList [("amount", "1")], none, none⟩]⟩], []⟩

/-- The document with the body of the function in the place of the call. -/
def inlinedDocument : Document :=
  ⟨[⟨1, 0, 0, [⟨(), "on_start", .empty, none, none⟩,
      ⟨(), "wait", .ofList [("seconds", "0.5")], none, none⟩,
      ⟨(), "add_score", .ofList [("amount", "1")], none, none⟩]⟩,
      ⟨2, 0, 0, [⟨(), "define_func", .ofList [("name", "f")], none, none⟩,
      ⟨(), "wait", .ofList [("seconds", "0.5")], none, none⟩,
      ⟨(), "add_score", .ofList [("amount", "1")], none, none⟩]⟩], []⟩

theorem play_standsFor_callingDocument :
    Indistinguishable ((ofSeed .standard 7).play callingDocument .empty [⟨id, 1⟩])
      ((ofSeed .standard 7).play inlinedDocument .empty [⟨id, 1⟩]) := by
  have hbody : callingDocument.body? "f" =
      some [⟨(), "wait", .ofList [("seconds", "0.5")], none, none⟩,
      ⟨(), "add_score", .ofList [("amount", "1")], none, none⟩] := by
    have hstart : Trigger.ofBlock? (⟨(), "on_start", .empty, none, none⟩ : Node) ≠
        some (.function "f") := by
      decide +kernel
    have hfunction :
        Trigger.ofBlock? (⟨(), "define_func", .ofList [("name", "f")], none, none⟩ : Node) =
        some (.function "f") := by
      decide +kernel
    simp [callingDocument, Document.body?, Document.bodyIn?, hstart, hfunction]
  have hname : nameIn (⟨(), "call_func", .ofList [("name", "f")], none, none⟩ : Node) "name" =
      "f" := by
    decide +kernel
  have hcall : callingDocument.StandsFor Limits.standard ⟨(), "call_func",
      .ofList [("name", "f")], none, none⟩ _ :=
    .call (by decide +kernel) (by rw [hname, hbody])
  have hreplaced : callingDocument.Replaced (callingDocument.StandsFor Limits.standard)
      inlinedDocument :=
    .chain [] _ [] (.rest _ (.here [] [] hcall))
  have hquiet : (ofSeed .standard 7).NeverFaultsOnCall callingDocument .empty [⟨id, 1⟩] := by
    refine ⟨Agenda.neverFaultsOnCall_of_faultless 30 (by decide +kernel) (by decide +kernel), ?_⟩
    intro earlier b later s hbeats hs
    obtain ⟨rfl, rfl, rfl⟩ : earlier = [] ∧ b = ⟨id, 1⟩ ∧ later = [] := by
      cases earlier with
      | nil => simpa [eq_comm] using hbeats
      | cons _ earlier => simp at hbeats
    obtain rfl := Option.some.inj hs
    exact Agenda.neverFaultsOnCall_of_faultless 30 (by decide +kernel) (by decide +kernel)
  exact play_standsFor (ofSeed .standard 7) hreplaced .empty [⟨id, 1⟩] hquiet

end Engine

end Script

end BlockStudio
