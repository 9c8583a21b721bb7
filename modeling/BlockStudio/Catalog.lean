import BlockStudio.Color
import BlockStudio.Number.Numeral
import BlockStudio.Table
import BlockStudio.Text.Blank

/-!
The catalogue of block kinds. A kind has a category, a label with places for its fields, a list of
fields and a shape. The shape says whether a block starts a chain (a hat) and how many slots it has
for other blocks.
-/
namespace BlockStudio

inductive Category where
  | events
  | motion
  | looks
  | variableOps
  | control
  | game
  | functions
deriving Repr, DecidableEq

namespace Category

def all : List Category := [.events, .motion, .looks, .variableOps, .control, .game, .functions]

def name : Category → String
  | .events => "events"
  | .motion => "motion"
  | .looks => "looks"
  | .variableOps => "variables"
  | .control => "control"
  | .game => "game"
  | .functions => "functions"

end Category

/-- What a field holds, and so which values it accepts. -/
inductive FieldKind where
  | number
  | text
  | dropdown (options : List String)
  | color
  /-- The id of an object of the scene. -/
  | objectRef
  /-- The name of a declared variable. -/
  | variableRef
deriving Repr, DecidableEq

structure Field where
  key : String
  kind : FieldKind
  default : String
deriving Repr, DecidableEq

namespace Field

def number (key default : String) : Field := ⟨key, .number, default⟩
def text (key default : String) : Field := ⟨key, .text, default⟩
def color (key default : String) : Field := ⟨key, .color, default⟩
def objectId (key : String) : Field := ⟨key, .objectRef, ""⟩
def variableName (key : String) : Field := ⟨key, .variableRef, ""⟩
def dropdown (key : String) (options : List String) (default : String) : Field :=
  ⟨key, .dropdown options, default⟩

/-- Whether a value fits the field, given the objects and variables there are. -/
def accepts (f : Field) (value : String) (objects variableNames : List String) : Bool :=
  match f.kind with
  | .number => (Number.readDouble? (Text.trim value)).any Float.isFinite
  | .text => true
  | .dropdown options => options.contains value
  | .color => (Color.ofText value).isOk
  | .objectRef => value.isEmpty || objects.contains value
  | .variableRef => value.isEmpty || variableNames.contains value

end Field

/-- How a block joins others. -/
inductive Shape where
  | command
  /-- Starts a chain. -/
  | hat
  | branch
  | branchElse
deriving Repr, DecidableEq

namespace Shape

def isHat : Shape → Bool
  | .hat => true
  | _ => false

def isBranch : Shape → Bool
  | .branch | .branchElse => true
  | _ => false

def hasElse : Shape → Bool
  | .branchElse => true
  | _ => false

def slotCount : Shape → Nat
  | .branch => 1
  | .branchElse => 2
  | _ => 0

end Shape

structure Definition where
  category : Category
  label : String
  fields : List Field
  shape : Shape
deriving Repr, DecidableEq

def Definition.field? (d : Definition) (key : String) : Option Field :=
  d.fields.find? (·.key == key)

inductive BlockKind where
  | onStart
  | onTimer
  | onTouch
  | onKey
  | onVarChange
  | onScore
  | moveObj
  | teleportObj
  | showObj
  | hideObj
  | setColor
  | showMessage
  | setVar
  | changeVar
  | wait
  | ifCond
  | ifElse
  | ifRandom
  | repeatN
  | repeatWhile
  | destroyObj
  | addScore
  | setScore
  | endGame
  | defineFunc
  | callFunc
deriving Repr, DecidableEq

namespace BlockKind

def all : List BlockKind :=
  [.onStart, .onTimer, .onTouch, .onKey, .onVarChange, .onScore, .moveObj, .teleportObj, .showObj,
    .hideObj, .setColor, .showMessage, .setVar, .changeVar, .wait, .ifCond, .ifElse, .ifRandom,
    .repeatN, .repeatWhile, .destroyObj, .addScore, .setScore, .endGame, .defineFunc, .callFunc]

/-- The name of a kind in documents. -/
def name : BlockKind → String
  | .onStart => "on_start"
  | .onTimer => "on_timer"
  | .onTouch => "on_touch"
  | .onKey => "on_key"
  | .onVarChange => "on_var_change"
  | .onScore => "on_score"
  | .moveObj => "move_obj"
  | .teleportObj => "teleport_obj"
  | .showObj => "show_obj"
  | .hideObj => "hide_obj"
  | .setColor => "set_color"
  | .showMessage => "show_message"
  | .setVar => "set_var"
  | .changeVar => "change_var"
  | .wait => "wait"
  | .ifCond => "if_cond"
  | .ifElse => "if_else"
  | .ifRandom => "if_random"
  | .repeatN => "repeat_n"
  | .repeatWhile => "repeat_while"
  | .destroyObj => "destroy_obj"
  | .addScore => "add_score"
  | .setScore => "set_score"
  | .endGame => "end_game"
  | .defineFunc => "define_func"
  | .callFunc => "call_func"

def ofName? (s : String) : Option BlockKind :=
  all.find? (·.name == s)

theorem ofName?_name (k : BlockKind) : ofName? k.name = some k := by
  cases k <;> decide

theorem name_eq_of_ofName? {s : String} {k : BlockKind} (h : ofName? s = some k) : k.name = s := by
  simpa using List.find?_some h

theorem name_inj {k k' : BlockKind} : k.name = k'.name ↔ k = k' := by
  refine ⟨fun h => ?_, congrArg name⟩
  exact Option.some.inj (by rw [← ofName?_name k, h, ofName?_name])

def compareOptions : List String := [">=", "<=", "==", "!="]

def keyOptions : List String :=
  ["space", "up", "down", "left", "right", "w", "a", "s", "d", "e", "q", "enter"]

/-- The fields of a comparison of a variable with a number. -/
def comparison (op value : String) : List Field :=
  [.variableName "var", .dropdown "op" compareOptions op, .number "value" value]

def definition : BlockKind → Definition
  | .onStart => ⟨.events, "when game starts", [], .hat⟩
  | .onTimer => ⟨.events, "after \x7bseconds\x7d seconds", [.number "seconds" "1"], .hat⟩
  | .onTouch => ⟨.events, "when player touches \x7bobject\x7d", [.objectId "object"], .hat⟩
  | .onKey => ⟨.events, "when \x7bkey\x7d key pressed", [.dropdown "key" keyOptions "space"], .hat⟩
  | .onVarChange => ⟨.events, "when \x7bvar\x7d changes", [.variableName "var"], .hat⟩
  | .onScore =>
    ⟨.events, "when score \x7bop\x7d \x7bvalue\x7d",
      [.dropdown "op" compareOptions ">=", .number "value" "10"], .hat⟩
  | .moveObj =>
    ⟨.motion, "move \x7bobject\x7d by x: \x7bdx\x7d y: \x7bdy\x7d",
      [.objectId "object", .number "dx" "10", .number "dy" "0"], .command⟩
  | .teleportObj =>
    ⟨.motion, "teleport \x7bobject\x7d to x: \x7bx\x7d y: \x7by\x7d",
      [.objectId "object", .number "x" "0", .number "y" "0"], .command⟩
  | .showObj => ⟨.looks, "show \x7bobject\x7d", [.objectId "object"], .command⟩
  | .hideObj => ⟨.looks, "hide \x7bobject\x7d", [.objectId "object"], .command⟩
  | .setColor =>
    ⟨.looks, "set color of \x7bobject\x7d to \x7bcolor\x7d",
      [.objectId "object", .color "color" "#ff0000"], .command⟩
  | .showMessage =>
    ⟨.looks, "say \x7btext\x7d for \x7bseconds\x7d seconds",
      [.text "text" "Hello!", .number "seconds" "2"], .command⟩
  | .setVar =>
    ⟨.variableOps, "set \x7bvar\x7d to \x7bvalue\x7d",
      [.variableName "var", .number "value" "0"], .command⟩
  | .changeVar =>
    ⟨.variableOps, "change \x7bvar\x7d by \x7bdelta\x7d",
      [.variableName "var", .number "delta" "1"], .command⟩
  | .wait => ⟨.control, "wait \x7bseconds\x7d seconds", [.number "seconds" "1"], .command⟩
  | .ifCond => ⟨.control, "if \x7bvar\x7d \x7bop\x7d \x7bvalue\x7d", comparison "==" "0", .branch⟩
  | .ifElse =>
    ⟨.control, "if \x7bvar\x7d \x7bop\x7d \x7bvalue\x7d else", comparison "==" "0", .branchElse⟩
  | .ifRandom => ⟨.control, "with \x7bchance\x7d% chance", [.number "chance" "50"], .branch⟩
  | .repeatN => ⟨.control, "repeat \x7btimes\x7d times", [.number "times" "10"], .branch⟩
  | .repeatWhile =>
    ⟨.control, "repeat while \x7bvar\x7d \x7bop\x7d \x7bvalue\x7d", comparison "<=" "10", .branch⟩
  | .destroyObj => ⟨.game, "destroy \x7bobject\x7d", [.objectId "object"], .command⟩
  | .addScore => ⟨.game, "add \x7bamount\x7d to score", [.number "amount" "10"], .command⟩
  | .setScore => ⟨.game, "set score to \x7bvalue\x7d", [.number "value" "0"], .command⟩
  | .endGame => ⟨.game, "end game", [], .command⟩
  | .defineFunc => ⟨.functions, "define \x7bname\x7d", [.text "name" "myFunction"], .hat⟩
  | .callFunc => ⟨.functions, "call \x7bname\x7d", [.text "name" "myFunction"], .command⟩

/-- The kinds of a category in the order of the catalogue. -/
def inCategory (c : Category) : List BlockKind :=
  all.filter (·.definition.category == c)

end BlockKind

def definition? (type : String) : Option Definition :=
  (BlockKind.ofName? type).map BlockKind.definition

def isHatType (type : String) : Bool :=
  (definition? type).any (·.shape.isHat)

end BlockStudio
