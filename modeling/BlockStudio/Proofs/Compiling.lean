import BlockStudio.Proofs.Confinement
import BlockStudio.Proofs.Defaults

/-!
Compiling keeps the commands. The catalogue says which types are hats and how many slots a block
has, the compiler which types have an action and which a trigger, and an action which block it
stands for; the three say the same. Main statement: the actions of a list are those of its commands,
in order, each with the name of its block and with what the slots of the block compile to, and so at
every depth, while exactly the hats have a trigger.
-/
namespace BlockStudio

namespace Block
variable {ι : Type}

/-- Whether the catalogue has the type of the block, and not as a hat. -/
def isCommand (b : Block ι) : Bool := (definition? b.type).isSome && !b.isHat

/-- The slots that blocks of the type have, of which some may be missing. -/
def openSlots (b : Block ι) : List (Option (List (Block ι))) :=
  [b.children, b.elseChildren].take ((definition? b.type).elim 0 (·.shape.slotCount))

mutual

/-- The types of the commands in a block, in pre-order. What is in a block that is no command, or in
a slot that blocks of its type do not have, does not count. -/
def commands : Block ι → List String
  | ⟨_, type, _, children, elseChildren⟩ =>
    match definition? type with
    | none => []
    | some d =>
      if d.shape.isHat then []
      else type ::
        ([commandsSlot children, commandsSlot elseChildren].take d.shape.slotCount).flatten

def commandsSlot : Option (List (Block ι)) → List String
  | none => []
  | some bs => commandsList bs

def commandsList : List (Block ι) → List String
  | [] => []
  | b :: rest => b.commands ++ commandsList rest

end

end Block

namespace Script

mutual

/-- The names of an action and of those in its bodies, in pre-order. -/
def Action.names : Action → List String
  | .effect e => [e.kind.name]
  | .wait _ => [ActionKind.wait.name]
  | .call _ => [ActionKind.callFunc.name]
  | .whenTrue _ body => ActionKind.ifCond.name :: Action.namesList body
  | .choose _ body otherwise =>
    ActionKind.ifElse.name :: (Action.namesList body ++ Action.namesList otherwise)
  | .chance _ body => ActionKind.ifRandom.name :: Action.namesList body
  | .repeatTimes _ body => ActionKind.repeatN.name :: Action.namesList body
  | .repeatWhile _ body => ActionKind.repeatWhile.name :: Action.namesList body

def Action.namesList : List Action → List String
  | [] => []
  | a :: rest => a.names ++ Action.namesList rest

end

theorem Action.names_eq (a : Action) :
    a.names = a.kind.name :: a.bodies.flatMap Action.namesList := by
  cases a <;> simp [names, kind, bodies]

theorem Action.namesList_append (as bs : List Action) :
    Action.namesList (as ++ bs) = Action.namesList as ++ Action.namesList bs := by
  induction as with
  | nil => rfl
  | cons a rest ih => simp [Action.namesList, ih]

/-- An action is that of a block: it has the name of its type, and its bodies are the slots,
compiled. -/
structure Compiles {ι : Type} (b : Block ι) (a : Action) : Prop where
  name : a.kind.name = b.type
  bodies : a.bodies = b.openSlots.map fun s => compileList (s.getD [])

section
variable {ι : Type} {k : BlockKind} {a : Action}

theorem bodies_of_actionOf? {b : Block ι} {body otherwise : List Action}
    (h : actionOf? b body otherwise k.name = some a) :
    a.bodies = [body, otherwise].take k.definition.shape.slotCount := by
  cases k <;> cases h <;> rfl

theorem isSome_compileBlock? (b : Block ι) : (compileBlock? b).isSome = b.isCommand := by
  rw [compileBlock?_eq, actionOf?_eq_bind, Block.isCommand, Block.isHat, isHatType, definition?]
  cases BlockKind.ofName? b.type with
  | none => rfl
  | some k => simp [isSome_actionOf?]

theorem compiles_of_compileBlock? {b : Block ι} (h : compileBlock? b = some a) : Compiles b a := by
  rw [compileBlock?_eq, actionOf?_eq_bind] at h
  obtain ⟨k, hkind, haction⟩ := Option.bind_eq_some_iff.1 h
  refine ⟨?_, ?_⟩
  · rw [name_of_actionOf? haction, BlockKind.name_eq_of_ofName? hkind]
  · rw [bodies_of_actionOf? haction, Block.openSlots, definition?, hkind, List.map_take]
    simp [compileSlot_eq]

theorem isSome_ofBlock? (b : Block ι) : (Trigger.ofBlock? b).isSome = isHatType b.type := by
  rw [Trigger.ofBlock?, Trigger.ofType?_eq_bind, isHatType, definition?]
  cases BlockKind.ofName? b.type with
  | none => rfl
  | some k => simp [isSome_ofType?]

theorem compiles_compileList (bs : List (Block ι)) :
    List.Forall₂ Compiles (bs.filter Block.isCommand) (compileList bs) := by
  induction bs with
  | nil => exact .nil
  | cons b rest ih =>
    have hcommand := isSome_compileBlock? b
    rw [compileList]
    cases h : compileBlock? b with
    | none =>
      rw [h] at hcommand
      simpa [← hcommand] using ih
    | some a =>
      rw [h] at hcommand
      simpa [← hcommand] using ⟨compiles_of_compileBlock? h, ih⟩

theorem names_actionOf? (k : BlockKind) (b : Block ι) (body otherwise : List Action) :
    (actionOf? b body otherwise k.name).elim [] Action.names =
      if k.definition.shape.isHat then []
      else
        k.name :: ([Action.namesList body, Action.namesList otherwise].take
          k.definition.shape.slotCount).flatten := by
  have hsome := isSome_actionOf? k b body otherwise
  cases haction : actionOf? b body otherwise k.name with
  | none =>
    have hhat : k.definition.shape.isHat = true := by simpa [haction] using hsome
    rw [if_pos hhat, Option.elim_none]
  | some a =>
    have hhat : ¬k.definition.shape.isHat = true := by simpa [haction] using hsome
    rw [if_neg hhat, Option.elim_some, Action.names_eq, name_of_actionOf? haction,
      bodies_of_actionOf? haction, List.flatMap_def, List.map_take]
    rfl

mutual

theorem names_compileBlock? : ∀ b : Block ι, (compileBlock? b).elim [] Action.names = b.commands
  | ⟨id, type, values, children, elseChildren⟩ => by
    rw [compileBlock?, actionOf?_eq_bind, Block.commands, definition?]
    cases hkind : BlockKind.ofName? type with
    | none => rfl
    | some k =>
      rw [Option.bind_some, names_actionOf?, namesList_compileSlot children,
        namesList_compileSlot elseChildren, BlockKind.name_eq_of_ofName? hkind]
      rfl

theorem namesList_compileSlot :
    ∀ s : Option (List (Block ι)), Action.namesList (compileSlot s) = Block.commandsSlot s
  | none => by simp [compileSlot, Action.namesList, Block.commandsSlot]
  | some bs => by rw [compileSlot, Block.commandsSlot, namesList_compileList bs]

theorem namesList_compileList :
    ∀ bs : List (Block ι), Action.namesList (compileList bs) = Block.commandsList bs
  | [] => by simp [compileList, Action.namesList, Block.commandsList]
  | b :: rest => by
    have hb := names_compileBlock? b
    rw [compileList, Block.commandsList, Action.namesList_append, namesList_compileList rest, ← hb]
    cases compileBlock? b <;> simp [Action.namesList]

end

/-- Compiling keeps the commands: their actions stand in their order and under their names, at every
depth, other blocks leave no action and do not touch their neighbours, and a block has a trigger
just if it is a hat. -/
theorem compileList_keeps_commands (bs : List (Block ι)) :
    (compileList bs).map (·.kind.name) = (bs.filter Block.isCommand).map (·.type) ∧
    List.Forall₂ Compiles (bs.filter Block.isCommand) (compileList bs) ∧
    (∀ before b after, bs = before ++ b :: after → b.isCommand = false →
      compileList bs = compileList (before ++ after)) ∧
    Action.namesList (compileList bs) = Block.commandsList bs ∧
    ∀ b : Block ι, (Trigger.ofBlock? b).isSome = isHatType b.type := by
  have hcompiles := compiles_compileList bs
  refine ⟨?_, hcompiles, ?_, namesList_compileList bs, isSome_ofBlock?⟩
  · have htypes : List.Forall₂ (· = ·) ((bs.filter Block.isCommand).map (·.type))
        ((compileList bs).map (·.kind.name)) := by
      rw [List.forall₂_map_left_iff, List.forall₂_map_right_iff]
      exact hcompiles.imp fun _ _ h => h.name.symm
    exact (List.forall₂_eq_eq_eq ▸ htypes).symm
  · rintro before b after rfl hb
    have hnone : compileBlock? b = none := by
      rw [← Option.not_isSome_iff_eq_none, isSome_compileBlock?, hb]
      exact Bool.noConfusion
    rw [compileList_append, compileList_append, compileList, hnone]
    rfl

/-- A hat inside a slot and a block of no known type leave no action, and a missing slot is an empty
one. -/
example : Action.namesList (compileList
    ([⟨(), "if_else", .empty,
      some [⟨(), "on_start", .empty, none, none⟩, ⟨(), "wait", .empty, none, none⟩], none⟩,
        ⟨(), "fly_away", .empty, none, none⟩, ⟨(), "end_game", .empty, none, none⟩] : List Node)) =
    ["if_else", "wait", "end_game"] := by
  decide +kernel

end

end Script

end BlockStudio
