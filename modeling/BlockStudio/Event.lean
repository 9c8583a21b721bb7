import BlockStudio.BoundedLog
import BlockStudio.Table

/-!
Events that scripts report to the game: a trigger fired, an object was destroyed, a message was
shown, the game ended. The bus keeps the latest five hundred, each with the frame in which it
happened.
-/
namespace BlockStudio

/-- The collections of objects that a game keeps, in the order in which they are searched. -/
inductive Collection where
  | platforms
  | hazards
  | collectibles
  | enemies
  | bouncePads
  | checkpoints
deriving Repr, DecidableEq

namespace Collection

def all : List Collection :=
  [.platforms, .hazards, .collectibles, .enemies, .bouncePads, .checkpoints]

theorem mem_all (c : Collection) : c ∈ all := by
  cases c <;> decide

def name : Collection → String
  | .platforms => "platforms"
  | .hazards => "hazards"
  | .collectibles => "collectibles"
  | .enemies => "enemies"
  | .bouncePads => "bounce_pads"
  | .checkpoints => "checkpoints"

end Collection

/-- The place where a game keeps track of an object. -/
inductive TrackedPlace where
  | collection (c : Collection)
  | goal
deriving Repr, DecidableEq

inductive EventContent where
  | triggerFired (trigger : String)
  | objectDestroyed (id : String) (tracked : Option TrackedPlace)
  | message (text : String)
  | gameEnded (trigger : String)
deriving Repr, DecidableEq

def EventContent.kind : EventContent → String
  | .triggerFired _ => "trigger_fired"
  | .objectDestroyed .. => "object_destroyed"
  | .message _ => "message"
  | .gameEnded _ => "game_ended"

structure Event where
  content : EventContent
  frame : Nat
deriving Repr, DecidableEq

def eventLimit : Nat := 500

structure EventBus where
  log : BoundedLog Event eventLimit
  frame : Nat

namespace EventBus

def empty : EventBus := ⟨.empty, 0⟩

instance : Inhabited EventBus := ⟨empty⟩

def emit (b : EventBus) (content : EventContent) : EventBus :=
  { b with log := b.log.push ⟨content, b.frame⟩ }

theorem entries_foldl_emit_empty (content? : Option EventContent) (frame : Nat) :
    (content?.toList.foldl emit ⟨.empty, frame⟩).log.entries.map (·.content) = content?.toList := by
  cases content? with
  | none => rfl
  | some content =>
    have hlimit : 0 < eventLimit := by decide
    exact congrArg (List.map _)
      (BoundedLog.entries_foldl_push_empty hlimit (some (Event.mk content frame)))

/-- The log without the frames. -/
def contents (b : EventBus) : BoundedLog EventContent eventLimit := b.log.map (·.content)

theorem contents_foldl_emit (b : EventBus) (events : List EventContent) :
    (events.foldl emit b).contents = events.foldl .push b.contents := by
  induction events generalizing b with
  | nil => rfl
  | cons content events ih =>
    have hpush : (b.emit content).contents = b.contents.push content :=
      BoundedLog.map_push Event.content b.log ⟨content, b.frame⟩
    rw [List.foldl_cons, ih, List.foldl_cons, hpush]

/-- The present frame is over. -/
def tick (b : EventBus) : EventBus := { b with frame := Number.countUp b.frame 1 }

def count (b : EventBus) (kind : String) : Nat :=
  (b.log.entries.filter (·.content.kind == kind)).length

/-- Counts one more of a kind. -/
def tally (t : Table Nat) (kind : String) : Table Nat :=
  t.insert kind ((t.get? kind).getD 0 + 1)

/-- The kinds of the kept events in ascending order, each with its number. -/
def summary (b : EventBus) : List (String × Nat) :=
  ((b.log.entries.map (·.content.kind)).foldl tally .empty).entries

end EventBus

end BlockStudio
