import BlockStudio.Color
import BlockStudio.Event
import BlockStudio.Geometry
import BlockStudio.Key
import BlockStudio.Table

/-!
The game that scripts act on: its objects, the player, the keys that are held, the score, and the
collections that keep track of objects. Scripts move, hide, colour and destroy objects; they never
add one.
-/
namespace BlockStudio

abbrev ObjectId := String

structure GameObject where
  x : Float32
  y : Float32
  width : Float32
  height : Float32
  visible : Bool
  color : Color
deriving Repr, DecidableEq

namespace GameObject

/-- A new object is visible and white. -/
def ofBox (b : Box) : GameObject := ⟨b.x, b.y, b.w, b.h, true, .white⟩

def box (o : GameObject) : Box := ⟨o.x, o.y, o.width, o.height⟩

end GameObject

/-- What a game keeps track of: six collections of objects and the goal. -/
structure Tracking where
  platforms : List ObjectId
  hazards : List ObjectId
  collectibles : List ObjectId
  enemies : List ObjectId
  bouncePads : List ObjectId
  checkpoints : List ObjectId
  goal : Option ObjectId
deriving Repr, DecidableEq

namespace Tracking

def empty : Tracking := ⟨[], [], [], [], [], [], none⟩

def get (t : Tracking) : Collection → List ObjectId
  | .platforms => t.platforms
  | .hazards => t.hazards
  | .collectibles => t.collectibles
  | .enemies => t.enemies
  | .bouncePads => t.bouncePads
  | .checkpoints => t.checkpoints

def set (t : Tracking) (c : Collection) (ids : List ObjectId) : Tracking :=
  match c with
  | .platforms => { t with platforms := ids }
  | .hazards => { t with hazards := ids }
  | .collectibles => { t with collectibles := ids }
  | .enemies => { t with enemies := ids }
  | .bouncePads => { t with bouncePads := ids }
  | .checkpoints => { t with checkpoints := ids }

theorem get_set (t : Tracking) (c d : Collection) (ids : List ObjectId) :
    (t.set c ids).get d = if d = c then ids else t.get d := by
  cases c <;> cases d <;> rfl

@[simp] theorem goal_set (t : Tracking) (c : Collection) (ids : List ObjectId) :
    (t.set c ids).goal = t.goal := by
  cases c <;> rfl

def add (t : Tracking) (c : Collection) (id : ObjectId) : Tracking := t.set c (t.get c ++ [id])

/-- The first collection that holds an object, and else the goal if it is the object. -/
def find? (t : Tracking) (id : ObjectId) : Option TrackedPlace :=
  match Collection.all.find? fun c => (t.get c).contains id with
  | some c => some (.collection c)
  | none => if t.goal = some id then some .goal else none

/-- Removes an object from the first place that holds it, and says which place that was. -/
def untrack (t : Tracking) (id : ObjectId) : Option TrackedPlace × Tracking :=
  match t.find? id with
  | none => (none, t)
  | some (.collection c) => (some (.collection c), t.set c ((t.get c).erase id))
  | some .goal => (some .goal, { t with goal := none })

end Tracking

structure World where
  score : Float
  player : Box
  /-- The names of the keys that are held. -/
  keys : Table Unit
  ended : Bool
  tracking : Tracking
  objects : Table GameObject
  bus : EventBus

namespace World

def empty : World := ⟨0, .zero, .empty, false, .empty, .empty, .empty⟩

instance : Inhabited World := ⟨empty⟩

def pressKey (w : World) (raw : String) : World :=
  { w with keys := w.keys.insert (Key.normalize raw) () }

def releaseKey (w : World) (raw : String) : World :=
  { w with keys := w.keys.erase (Key.normalize raw) }

def isKeyDown (w : World) (name : String) : Bool := w.keys.contains name

def emit (w : World) (content : EventContent) : World := { w with bus := w.bus.emit content }

/-- Whether an object exists and overlaps the player. -/
def touchesPlayer (w : World) (id : ObjectId) : Bool :=
  (w.objects.get? id).any (·.box.overlaps w.player)

/-- Removes an object with its tracking and reports it; an object that does not exist is left
alone. -/
def destroyObject (w : World) (id : ObjectId) : World :=
  if w.objects.contains id then
    let (place, tracking) := w.tracking.untrack id
    ({ w with objects := w.objects.erase id, tracking } : World).emit (.objectDestroyed id place)
  else w

end World

end BlockStudio
