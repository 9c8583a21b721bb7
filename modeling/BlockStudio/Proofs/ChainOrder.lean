import BlockStudio.Proofs.Commuting
import BlockStudio.Proofs.Defaults
import BlockStudio.Proofs.Plays

/-!
The order of chains. A session begins by registering each chain under the heading of its trigger,
one after the other, and what is registered under one heading does not depend on the others. Main
statement: documents whose chains come in the same order for each kind of trigger begin the same
session and play alike; so a function may be defined before or after any chain that calls it.
-/
namespace BlockStudio

/-- The type of the block at the head of a chain. -/
def DocumentChain.headType? (c : DocumentChain) : Option String := c.blocks.head?.map (·.type)

/-- The chains that begin with a block of a kind, without their ids and positions. -/
def Document.chainsOf (d : Document) (k : BlockKind) : List (List Node) :=
  (d.chains.filter fun c => c.headType? = some k.name).map (·.blocks)

/-- Documents with the same variables and, for each kind of trigger, the same chains in the same
order. -/
structure Document.SameByTrigger (d d' : Document) : Prop where
  variableNames_eq : d.variableNames = d'.variableNames
  chainsOf_eq : ∀ k : BlockKind, k.definition.shape.isHat = true → d.chainsOf k = d'.chainsOf k

namespace Script

/-- What a list with a trigger is registered under: the kind of the trigger, and the name that it
asks for. -/
def Trigger.heading : Trigger → BlockKind × String
  | .start => (.onStart, "")
  | .timer _ => (.onTimer, "")
  | .touch object => (.onTouch, object)
  | .key name => (.onKey, name)
  | .variableChanged name => (.onVarChange, name)
  | .score .. => (.onScore, "")
  | .function name => (.defineFunc, name)

theorem Trigger.heading_fst (t : Trigger) : t.heading.1 = t.kind := by
  cases t <;> rfl

/-- What is registered of the chains of a document before any of them starts. -/
structure Register where
  functions : Table (List Action)
  watchers : Table (List (List Action))
  touches : Table (List (List Action))
  keys : Table (List (List Action))
  scores : List ScoreTrigger
  /-- The lists that start at once, with the labels of their triggers. -/
  starts : List (String × List Action)
  /-- The state, in which the timers wait. -/
  state : State

namespace Register

def blank (s : State) : Register := ⟨.empty, .empty, .empty, .empty, [], [], s⟩

/-- Registers the handler of one chain. -/
def add (r : Register) (h : Handler) : Register :=
  match h.trigger with
  | .start => { r with starts := r.starts ++ [h.labelled] }
  | .timer seconds => { r with state := r.state.addTimer (seconds, h.labelled) }
  | .touch object => { r with touches := addToGroup r.touches (object, h.actions) }
  | .key name => { r with keys := addToGroup r.keys (name, h.actions) }
  | .variableChanged name => { r with watchers := addToGroup r.watchers (name, h.actions) }
  | .score comparison threshold =>
    { r with scores := r.scores ++ [⟨comparison, threshold, h.actions, false⟩] }
  | .function name => { r with functions := r.functions.insert name h.actions }

/-- The session that begins with what is registered: nothing is touched or held yet, and the lists
that start at once are run. -/
def begin (r : Register) (limits : Limits) : Session × State :=
  let program : Program := ⟨limits, r.functions, r.watchers⟩
  let inactive (t : Table (List (List Action))) : Table Binding :=
    t.mapValues fun _ lists => ⟨lists, false⟩
  let s := startAll program .start r.starts r.state
  (⟨program, .start, inactive r.touches, inactive r.keys, r.scores, s.variableValues,
    s.overlay, s.pending⟩, s)

/-- What is registered of each kind comes from the handlers of this kind. -/
theorem foldl_add (hs : List Handler) (r : Register) : hs.foldl add r =
    ⟨(hs.filterMap Handler.function?).foldl (fun t e => t.insert e.1 e.2) r.functions,
      (hs.filterMap Handler.watcher?).foldl addToGroup r.watchers,
      (hs.filterMap Handler.touch?).foldl addToGroup r.touches,
      (hs.filterMap Handler.key?).foldl addToGroup r.keys,
      r.scores ++ hs.filterMap Handler.score?,
      r.starts ++ hs.filterMap Handler.start?,
      (hs.filterMap Handler.timer?).foldl State.addTimer r.state⟩ := by
  induction hs generalizing r with
  | nil => simp
  | cons h hs ih =>
    obtain ⟨trigger, actions⟩ := h
    rw [List.foldl_cons, ih]
    cases trigger <;>
      simp [List.filterMap_cons, add, Handler.function?, Handler.watcher?, Handler.touch?,
        Handler.key?, Handler.score?, Handler.start?, Handler.timer?]

theorem addToGroup_comm {α : Type} (t : Table (List α)) {name name' : String}
    (h : name ≠ name') (x x' : α) :
    addToGroup (addToGroup t (name, x))
      (name', x') = addToGroup (addToGroup t (name', x')) (name, x) := by
  simp only [addToGroup]
  rw [Table.get?_insert_of_ne _ _ h.symm, Table.get?_insert_of_ne _ _ h, Table.insert_comm _ h]

/-- Handlers under different headings may be registered in either order. Two parts of the register
are independent, and so are two names in one part. -/
theorem add_comm (r : Register) {h h' : Handler} (hne : h.trigger.heading ≠ h'.trigger.heading) :
    (r.add h).add h' = (r.add h').add h := by
  obtain ⟨trigger, actions⟩ := h
  obtain ⟨trigger', actions'⟩ := h'
  cases trigger <;> cases trigger' <;> try rfl
  case start.start => exact absurd rfl hne
  case timer.timer => exact absurd rfl hne
  case score.score => exact absurd rfl hne
  all_goals
    simp only [Trigger.heading, ne_eq, Prod.mk.injEq, true_and] at hne
    simp only [add, addToGroup_comm _ hne, Table.insert_comm _ hne]

theorem add_foldl_add {hs : List Handler} {h : Handler}
    (hne : ∀ h' ∈ hs, h'.trigger.heading ≠ h.trigger.heading) (r : Register) :
    (hs.foldl add r).add h = hs.foldl add (r.add h) := by
  induction hs generalizing r with
  | nil => rfl
  | cons h' hs ih =>
    obtain ⟨hhead, hrest⟩ := List.forall_mem_cons.mp hne
    rw [List.foldl_cons, ih hrest, add_comm r hhead, List.foldl_cons]

/-- Registering sees the order of the handlers under each heading only. The induction takes the
first handler, which is the first one of its heading on the other side too. -/
theorem foldl_add_eq_of_filter_eq {hs hs' : List Handler}
    (h : ∀ x, hs.filter (·.trigger.heading = x) = hs'.filter (·.trigger.heading = x))
    (r : Register) :
    hs.foldl add r = hs'.foldl add r := by
  induction hs generalizing hs' r with
  | nil =>
    cases hs' with
    | nil => rfl
    | cons h' hs' => simpa using h h'.trigger.heading
  | cons first hs ih =>
    have hfirst := h first.trigger.heading
    rw [List.filter_cons_of_pos (by simp)] at hfirst
    obtain ⟨before, after, rfl, hbefore, -, -⟩ := List.filter_eq_cons_iff.mp hfirst.symm
    have hne : ∀ h' ∈ before, h'.trigger.heading ≠ first.trigger.heading :=
      fun h' hh' => by simpa using hbefore h' hh'
    have hrest : ∀ x, hs.filter (·.trigger.heading = x) =
        (before ++ after).filter (·.trigger.heading = x) := by
      intro x
      have hx := h x
      by_cases hhead : first.trigger.heading = x
      · have hnone : before.filter (·.trigger.heading = x) = [] := by
          rw [List.filter_eq_nil_iff]
          intro h' hh'
          simpa [← hhead] using hne h' hh'
        simpa [hhead, hnone] using hx
      · simpa [hhead] using hx
    rw [List.foldl_cons, ih hrest, List.foldl_append, List.foldl_append, List.foldl_cons,
      add_foldl_add hne]

end Register

/-- A session begins by registering the chains of the document one after the other. -/
theorem Session.begin_eq_foldl_add (limits : Limits) (d : Document)
    (lastTaskId : Nat) (random : Random) (world : World) :
    Session.begin limits d lastTaskId random world =
      ((Handler.ofDocument d).foldl Register.add (.blank (State.mirrorScore
        ⟨.ofList (d.variableNames.map (·, 0)), none, [], lastTaskId, .empty, random,
          world⟩))).begin limits := by
  rw [Register.foldl_add]
  rfl

/-- A chain has a trigger of a kind just if it begins with a block of this kind. -/
theorem Trigger.heading_of_ofBlock? {ι : Type} {b : Block ι} {t : Trigger}
    (h : ofBlock? b = some t) (k : BlockKind) :
    t.heading.1 = k ↔ b.type = k.name := by
  rw [heading_fst, ← name_of_ofType? h]
  exact BlockKind.name_inj.symm

/-- The handlers with one kind of trigger are those of the chains that begin with a block of this
kind. -/
theorem Handler.filter_ofDocument (d : Document) (k : BlockKind) :
    (ofDocument d).filter (·.trigger.heading.1 = k) = (d.chainsOf k).filterMap ofBlocks? := by
  rw [ofDocument, List.filter_filterMap, Document.chainsOf, List.filterMap_map,
    List.filterMap_filter]
  refine List.filterMap_congr fun c _ => ?_
  obtain ⟨id, x, y, blocks⟩ := c
  cases blocks with
  | nil => rfl
  | cons head rest =>
    simp only [ofChain?, ofBlocks?, Function.comp_apply, DocumentChain.headType?,
      List.head?_cons, Option.map_some, Option.some.injEq, decide_eq_true_eq]
    cases ht : Trigger.ofBlock? head with
    | none => simp
    | some t => simp [Option.filter_some, Trigger.heading_of_ofBlock? ht]

theorem Trigger.isHat_heading (t : Trigger) : t.heading.1.definition.shape.isHat = true := by
  cases t <;> rfl

/-- Documents with the same chains for each kind of trigger have the same handlers under each
heading. -/
theorem Handler.filter_ofDocument_of_sameByTrigger {d d' : Document} (h : d.SameByTrigger d')
    (x : BlockKind × String) :
    (ofDocument d).filter (·.trigger.heading = x) =
      (ofDocument d').filter (·.trigger.heading = x) := by
  have hkind : ∀ d : Document, (ofDocument d).filter (·.trigger.heading = x) =
      ((ofDocument d).filter (·.trigger.heading.1 = x.1)).filter (·.trigger.heading = x) := by
    intro d
    rw [List.filter_filter]
    refine List.filter_congr fun h _ => ?_
    by_cases heq : h.trigger.heading = x <;> simp [heq]
  rw [hkind d, hkind d']
  cases hhat : x.1.definition.shape.isHat with
  | true => rw [filter_ofDocument, filter_ofDocument, h.chainsOf_eq x.1 hhat]
  | false =>
    have hnone : ∀ d : Document, (ofDocument d).filter (·.trigger.heading.1 = x.1) = [] := by
      intro d
      rw [List.filter_eq_nil_iff]
      intro handler _
      have := handler.trigger.isHat_heading
      grind
    rw [hnone d, hnone d']

namespace Engine

/-- Documents with the same variables and with the same handlers under each heading begin the same
session. -/
theorem start_congr (e : Engine) (w : World) {d d' : Document}
    (hnames : d.variableNames = d'.variableNames)
    (h : ∀ x, (Handler.ofDocument d).filter (·.trigger.heading = x) =
      (Handler.ofDocument d').filter (·.trigger.heading = x)) : e.start d w = e.start d' w := by
  rw [start, start, Session.begin_eq_foldl_add, Session.begin_eq_foldl_add, hnames,
    Register.foldl_add_eq_of_filter_eq h]

end Engine

end Script

/-- The trigger of a chain, which is that of its first block. -/
def DocumentChain.trigger? (c : DocumentChain) : Option Script.Trigger :=
  c.blocks.head?.bind Script.Trigger.ofBlock?

namespace Script

theorem Handler.ofChain?_eq_map (c : DocumentChain) :
    ofChain? c = c.trigger?.map fun t => ⟨t, compileList c.blocks.tail⟩ := by
  obtain ⟨id, x, y, blocks⟩ := c
  cases blocks <;> rfl

namespace Engine

/-- A chain may stand before or after chains under other headings. Where the chain is under a
heading, none of those in between is. -/
theorem start_move_chain (e : Engine) (w : World) (names : List String)
    (before between after : List DocumentChain) (c : DocumentChain)
    (hbetween : ∀ c' ∈ between, ∀ t ∈ c.trigger?, ∀ t' ∈ c'.trigger?, t'.heading ≠ t.heading) :
    e.start ⟨before ++ c :: (between ++ after), names⟩ w =
      e.start ⟨before ++ (between ++ c :: after), names⟩ w := by
  refine e.start_congr w rfl fun x => ?_
  have hcons : ∀ cs, (c :: cs).filterMap Handler.ofChain? =
      (Handler.ofChain? c).toList ++ cs.filterMap Handler.ofChain? := by
    intro cs
    cases hc : Handler.ofChain? c <;> simp [hc]
  simp only [Handler.ofDocument, List.filterMap_append, hcons, List.filter_append]
  congr 1
  rw [← List.append_assoc, ← List.append_assoc]
  congr 1
  by_cases hx : ∃ t ∈ c.trigger?, t.heading = x
  · obtain ⟨t, ht, rfl⟩ := hx
    have hnone : (between.filterMap Handler.ofChain?).filter (·.trigger.heading = t.heading) =
        [] := by
      rw [List.filter_eq_nil_iff]
      intro h hh
      obtain ⟨c', hc', hhandler⟩ := List.mem_filterMap.mp hh
      rw [Handler.ofChain?_eq_map] at hhandler
      obtain ⟨t', ht', rfl⟩ := Option.map_eq_some_iff.mp hhandler
      simpa using hbetween c' hc' t ht t' ht'
    rw [hnone, List.append_nil, List.nil_append]
  · have hnone : (Handler.ofChain? c).toList.filter (·.trigger.heading = x) = [] := by
      rw [List.filter_eq_nil_iff]
      intro h hh
      rw [Option.mem_toList, Handler.ofChain?_eq_map] at hh
      obtain ⟨t, ht, rfl⟩ := Option.map_eq_some_iff.mp hh
      simpa using fun heq => hx ⟨t, ht, heq⟩
    rw [hnone, List.append_nil, List.nil_append]

/-- Documents with the same variables and, for each kind of trigger, the same chains in the same
order begin the same session in an engine, with the same game, and play alike from there on. In
particular a function may be defined before or after any chains but other definitions of it. -/
theorem play_same_by_trigger (e : Engine) (w : World) :
    (∀ d d' : Document, d.SameByTrigger d' →
      e.start d w = e.start d' w ∧ ∀ beats, e.play d w beats = e.play d' w beats) ∧
    ∀ (names : List String) (before between after : List DocumentChain)
      (c : DocumentChain) (name : String),
      c.trigger? = some (.function name) → (∀ c' ∈ between, c'.trigger? ≠ some (.function name)) →
      e.start ⟨before ++ c :: (between ++ after), names⟩ w =
        e.start ⟨before ++ (between ++ c :: after), names⟩ w ∧
        ∀ beats, e.play ⟨before ++ c :: (between ++ after), names⟩ w beats =
          e.play ⟨before ++ (between ++ c :: after), names⟩ w beats := by
  have hplay : ∀ {d d' : Document}, e.start d w = e.start d' w →
      e.start d w = e.start d' w ∧ ∀ beats, e.play d w beats = e.play d' w beats := by
    intro d d' hstart
    exact ⟨hstart, fun beats => by rw [play, play, hstart]⟩
  constructor
  · intro d d' h
    exact hplay (e.start_congr w h.variableNames_eq (Handler.filter_ofDocument_of_sameByTrigger h))
  · intro names before between after c name hc hbetween
    refine hplay (e.start_move_chain w names before between after c
      fun c' hc' t ht t' ht' hheading => ?_)
    obtain rfl : t = .function name := Option.some.inj (ht.symm.trans hc)
    obtain rfl : t' = .function name := by cases t' <;> simp_all [Trigger.heading]
    exact hbetween c' hc' ht'

/-- A chain that calls a function as soon as it starts. -/
def callerChain : DocumentChain :=
  ⟨1, 0, 0, [⟨(), "on_start", .empty, none, none⟩,
    ⟨(), "call_func", .ofList [("name", "finish")], none, none⟩]⟩

def functionChain : DocumentChain :=
  ⟨2, 40, 0, [⟨(), "define_func", .ofList [("name", "finish")], none, none⟩,
    ⟨(), "end_game", .empty, none, none⟩]⟩

/-- A chain that begins with a block which is no trigger. -/
def looseChain : DocumentChain := ⟨3, 80, 0, [⟨(), "end_game", .empty, none, none⟩]⟩

/-- The function may be defined first or last, whether or not loose and empty chains stand about. -/
theorem function_after_caller :
    let e : Engine := .ofSeed .standard 7
    let first : Document := ⟨[functionChain, callerChain], ["x"]⟩
    let last : Document :=
      ⟨[looseChain, callerChain, ⟨4, 0, 0, []⟩, { functionChain with id := 9 }], ["x"]⟩
    first.SameByTrigger last ∧ functionChain.trigger? = some (.function "finish") ∧
      callerChain.trigger? ≠ some (.function "finish") ∧
      e.start first .empty = e.start last .empty ∧
      ∀ beats, e.play ⟨[functionChain, callerChain], ["x"]⟩ .empty beats =
        e.play ⟨[callerChain, functionChain], ["x"]⟩ .empty beats := by
  intro e first last
  have hsame : first.SameByTrigger last :=
    ⟨rfl, fun k hk => by cases k <;> first | rfl | contradiction⟩
  have hfunction : functionChain.trigger? = some (.function "finish") := by decide +kernel
  have hcaller : callerChain.trigger? ≠ some (.function "finish") := by decide +kernel
  refine ⟨hsame, hfunction, hcaller, ((play_same_by_trigger e .empty).1 first last hsame).1, ?_⟩
  exact ((play_same_by_trigger e .empty).2 ["x"] [] [callerChain] [] functionChain
    "finish" hfunction (by simpa using hcaller)).2

end Engine

end Script

end BlockStudio
