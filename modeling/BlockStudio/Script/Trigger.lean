import BlockStudio.Number.Style
import BlockStudio.Script.Action

/-!
Triggers: what the hat of a chain waits for. Exactly the hats of the catalogue have one. The label
of a trigger is the origin that events and faults name.
-/
namespace BlockStudio.Script

inductive Trigger where
  | start
  | timer (seconds : Float)
  | touch (object : String)
  | key (name : String)
  | variableChanged (name : String)
  | score (comparison : Option Comparison) (threshold : Float)
  | function (name : String)
deriving Repr, DecidableEq

namespace Trigger

/-- The trigger of a block of a type, if it is a hat. -/
def ofType? {ι : Type} (b : Block ι) : String → Option Trigger
  | "on_start" => some .start
  | "on_timer" => some (.timer (positivePart (number b "seconds")))
  | "on_touch" => some (.touch (nameIn b "object"))
  | "on_key" => some (.key (Key.normalize (b.value "key")))
  | "on_var_change" => some (.variableChanged (nameIn b "var"))
  | "on_score" => some (.score (Comparison.read? (b.value "op")) (number b "value"))
  | "define_func" => some (.function (nameIn b "name"))
  | _ => none

/-- The trigger of the block at the head of a chain. -/
def ofBlock? {ι : Type} (b : Block ι) : Option Trigger := ofType? b b.type

/-- The kind of the hats that have such a trigger. -/
def kind : Trigger → BlockKind
  | .start => .onStart
  | .timer _ => .onTimer
  | .touch _ => .onTouch
  | .key _ => .onKey
  | .variableChanged _ => .onVarChange
  | .score .. => .onScore
  | .function _ => .defineFunc

/-- The trigger of a type is that of a kind of hats. -/
theorem name_of_ofType? {ι : Type} {b : Block ι} {type : String} {t : Trigger}
    (h : ofType? b type = some t) : t.kind.name = type := by
  unfold ofType? at h
  split at h <;> cases h <;> rfl

/-- Only the types of the catalogue have triggers. -/
theorem ofType?_eq_bind {ι : Type} (b : Block ι) (type : String) :
    ofType? b type = (BlockKind.ofName? type).bind fun k => ofType? b k.name := by
  cases hk : BlockKind.ofName? type with
  | some k => rw [Option.bind_some, BlockKind.name_eq_of_ofName? hk]
  | none =>
    cases htrigger : ofType? b type with
    | none => rfl
    | some t =>
      rw [← name_of_ofType? htrigger, BlockKind.ofName?_name] at hk
      contradiction

def named (trigger argument : String) : String := trigger ++ "(" ++ argument ++ ")"

def changeLabel (name : String) : String := named "on_var_change" name

def label : Trigger → String
  | .start => "on_start"
  | .timer seconds => named "on_timer" (Number.Style.plain.double seconds)
  | .touch object => named "on_touch" object
  | .key name => named "on_key" name
  | .variableChanged name => changeLabel name
  | .score _ threshold => named "on_score" (Number.Style.plain.double threshold)
  | .function name => named "define_func" name

end Trigger

end BlockStudio.Script
