import BlockStudio.Block
import BlockStudio.Key
import BlockStudio.Number.Binary

/-!
Actions of scripts and their compilation from blocks. Effects take place at once; the other actions
steer which action comes next. Compiling keeps the blocks that stand for an action, in order and at
every depth, and drops all others.
-/
namespace BlockStudio.Script

inductive Comparison where
  | ge
  | le
  | eq
  | ne
deriving Repr, DecidableEq

namespace Comparison

def symbol : Comparison → String
  | .ge => ">="
  | .le => "<="
  | .eq => "=="
  | .ne => "!="

/-- A comparison from its symbol; a single equals sign is accepted too. -/
def read? (s : String) : Option Comparison :=
  match Text.trim s with
  | ">=" => some .ge
  | "<=" => some .le
  | "==" => some .eq
  | "=" => some .eq
  | "!=" => some .ne
  | _ => none

def holds (c : Comparison) (a b : Float) : Bool :=
  match c with
  | .ge => a ≥ b
  | .le => a ≤ b
  | .eq => a == b
  | .ne => a != b

end Comparison

/-- A comparison of a variable with a number. Without a comparison it never holds. -/
structure Condition where
  variableName : String
  comparison : Option Comparison
  value : Float
deriving Repr, DecidableEq

def Condition.holds (c : Condition) (current : Float) : Bool :=
  c.comparison.any fun op => op.holds current c.value

/-- What an action does to the game or to the variables, at once. -/
inductive Effect where
  | move (object : String) (dx dy : Float)
  | teleport (object : String) (x y : Float)
  | setVisible (object : String) (visible : Bool)
  | destroy (object : String)
  | setColor (object color : String)
  | setVariable (name : String) (value : Float)
  | changeVariable (name : String) (delta : Float)
  | addScore (amount : Float)
  | setScore (value : Float)
  | showMessage (text : String) (seconds : Float)
  | endGame
deriving Repr, DecidableEq

inductive Action where
  | effect (e : Effect)
  | wait (seconds : Float)
  | call (function : String)
  | whenTrue (condition : Condition) (body : List Action)
  | choose (condition : Condition) (body otherwise : List Action)
  | chance (percent : Float) (body : List Action)
  | repeatTimes (times : Nat) (body : List Action)
  | repeatWhile (condition : Condition) (body : List Action)

/-- What an action does, as faults and reports name it. -/
inductive ActionKind where
  | moveObj
  | teleportObj
  | showObj
  | hideObj
  | destroyObj
  | setColor
  | setVar
  | changeVar
  | addScore
  | setScore
  | showMessage
  | endGame
  | wait
  | callFunc
  | ifCond
  | ifElse
  | ifRandom
  | repeatN
  | repeatWhile
deriving Repr, DecidableEq

namespace ActionKind

def name : ActionKind → String
  | .moveObj => "move_obj"
  | .teleportObj => "teleport_obj"
  | .showObj => "show_obj"
  | .hideObj => "hide_obj"
  | .destroyObj => "destroy_obj"
  | .setColor => "set_color"
  | .setVar => "set_var"
  | .changeVar => "change_var"
  | .addScore => "add_score"
  | .setScore => "set_score"
  | .showMessage => "show_message"
  | .endGame => "end_game"
  | .wait => "wait"
  | .callFunc => "call_func"
  | .ifCond => "if_cond"
  | .ifElse => "if_else"
  | .ifRandom => "if_random"
  | .repeatN => "repeat_n"
  | .repeatWhile => "repeat_while"

/-- The kind of the blocks that stand for such an action. -/
def blockKind : ActionKind → BlockKind
  | .moveObj => .moveObj
  | .teleportObj => .teleportObj
  | .showObj => .showObj
  | .hideObj => .hideObj
  | .destroyObj => .destroyObj
  | .setColor => .setColor
  | .setVar => .setVar
  | .changeVar => .changeVar
  | .addScore => .addScore
  | .setScore => .setScore
  | .showMessage => .showMessage
  | .endGame => .endGame
  | .wait => .wait
  | .callFunc => .callFunc
  | .ifCond => .ifCond
  | .ifElse => .ifElse
  | .ifRandom => .ifRandom
  | .repeatN => .repeatN
  | .repeatWhile => .repeatWhile

/-- An action is named as its block is in documents. -/
theorem name_eq (k : ActionKind) : k.name = k.blockKind.name := by
  cases k <;> rfl

end ActionKind

def Effect.kind : Effect → ActionKind
  | .move .. => .moveObj
  | .teleport .. => .teleportObj
  | .setVisible _ true => .showObj
  | .setVisible _ false => .hideObj
  | .destroy _ => .destroyObj
  | .setColor .. => .setColor
  | .setVariable .. => .setVar
  | .changeVariable .. => .changeVar
  | .addScore _ => .addScore
  | .setScore _ => .setScore
  | .showMessage .. => .showMessage
  | .endGame => .endGame

def Action.kind : Action → ActionKind
  | .effect e => e.kind
  | .wait _ => .wait
  | .call _ => .callFunc
  | .whenTrue .. => .ifCond
  | .choose .. => .ifElse
  | .chance .. => .ifRandom
  | .repeatTimes .. => .repeatN
  | .repeatWhile .. => .repeatWhile

section Compile
variable {ι : Type}

/-- The number in a field; a text that is no finite number reads as zero. -/
def number (b : Block ι) (key : String) : Float :=
  ((Number.readDouble? (Text.trim (b.value key))).filter Float.isFinite).getD 0

def nameIn (b : Block ι) (key : String) : String := Text.trim (b.value key)

/-- The number, if it is above zero, and else zero. -/
def positivePart (x : Float) : Float := if x > 0 then x else 0

def conditionOf (b : Block ι) : Condition :=
  ⟨nameIn b "var", Comparison.read? (b.value "op"), number b "value"⟩

/-- The effect of a block of a type, if it has one. -/
def effectOf? (b : Block ι) : String → Option Effect
  | "move_obj" => some (.move (nameIn b "object") (number b "dx") (number b "dy"))
  | "teleport_obj" => some (.teleport (nameIn b "object") (number b "x") (number b "y"))
  | "show_obj" => some (.setVisible (nameIn b "object") true)
  | "hide_obj" => some (.setVisible (nameIn b "object") false)
  | "destroy_obj" => some (.destroy (nameIn b "object"))
  | "set_color" => some (.setColor (nameIn b "object") (nameIn b "color"))
  | "set_var" => some (.setVariable (nameIn b "var") (number b "value"))
  | "change_var" => some (.changeVariable (nameIn b "var") (number b "delta"))
  | "add_score" => some (.addScore (number b "amount"))
  | "set_score" => some (.setScore (number b "value"))
  | "show_message" => some (.showMessage (b.value "text") (number b "seconds"))
  | "end_game" => some .endGame
  | _ => none

/-- The action of a block of a type whose slots compile to `body` and `otherwise`; hats and unknown
types have none. -/
def actionOf? (b : Block ι) (body otherwise : List Action) : String → Option Action
  | "wait" => some (.wait (positivePart (number b "seconds")))
  | "call_func" => some (.call (nameIn b "name"))
  | "if_cond" => some (.whenTrue (conditionOf b) body)
  | "if_else" => some (.choose (conditionOf b) body otherwise)
  | "if_random" => some (.chance (number b "chance") body)
  | "repeat_n" =>
    some (.repeatTimes (Number.toNatSaturating (positivePart (number b "times"))) body)
  | "repeat_while" => some (.repeatWhile (conditionOf b) body)
  | type => (effectOf? b type).map .effect

theorem name_of_effectOf? {b : Block ι} {type : String} {e : Effect}
    (h : effectOf? b type = some e) : e.kind.name = type := by
  unfold effectOf? at h
  split at h <;> cases h <;> rfl

/-- The action of a type is named as the type. -/
theorem name_of_actionOf? {b : Block ι} {body otherwise : List Action} {type : String} {a : Action}
    (h : actionOf? b body otherwise type = some a) : a.kind.name = type := by
  unfold actionOf? at h
  split at h
  case h_8 =>
    obtain ⟨e, he, rfl⟩ := Option.map_eq_some_iff.1 h
    exact name_of_effectOf? he
  all_goals
    cases h
    rfl

/-- Only the types of the catalogue have actions. -/
theorem actionOf?_eq_bind (b : Block ι) (body otherwise : List Action) (type : String) :
    actionOf? b body otherwise type =
      (BlockKind.ofName? type).bind fun k => actionOf? b body otherwise k.name := by
  cases hk : BlockKind.ofName? type with
  | some k => rw [Option.bind_some, BlockKind.name_eq_of_ofName? hk]
  | none =>
    cases haction : actionOf? b body otherwise type with
    | none => rfl
    | some a =>
      rw [← name_of_actionOf? haction, ActionKind.name_eq, BlockKind.ofName?_name] at hk
      contradiction

mutual

/-- The action of a block, if its type stands for one. -/
def compileBlock? : Block ι → Option Action
  | ⟨id, type, values, children, elseChildren⟩ =>
    actionOf? ⟨id, type, values, children, elseChildren⟩ (compileSlot children)
      (compileSlot elseChildren) type

/-- The actions of a slot; a slot that is missing has none. -/
def compileSlot : Option (List (Block ι)) → List Action
  | none => []
  | some bs => compileList bs

def compileList : List (Block ι) → List Action
  | [] => []
  | b :: rest => (compileBlock? b).toList ++ compileList rest

end

end Compile

end BlockStudio.Script
