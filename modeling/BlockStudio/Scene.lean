import BlockStudio.Json.Decode
import BlockStudio.World

/-!
Scenes and the start-up configuration. A scene lists the objects of a game with their colours and
roles; setting it up replaces all objects and collections of a world and resets the score.
-/
namespace BlockStudio

structure SceneObject where
  id : String
  x : Float32
  y : Float32
  width : Float32
  height : Float32
  color : Option String
  role : Option String

structure Scene where
  player : Option Box
  objects : List SceneObject

namespace Scene

def empty : Scene := ⟨none, []⟩

instance : Inhabited Scene := ⟨empty⟩

/-- The collection that a role belongs to. -/
def collection? (role : String) : Option Collection :=
  match Text.lowerAscii (Text.trim role) with
  | "platform" => some .platforms
  | "hazard" => some .hazards
  | "collectible" => some .collectibles
  | "enemy" => some .enemies
  | "bounce_pad" => some .bouncePads
  | "bouncepad" => some .bouncePads
  | "checkpoint" => some .checkpoints
  | _ => none

/-- Keeps track of an object in its role; a role that is not known is ignored. -/
def track (t : Tracking) (id : ObjectId) (role : String) : Tracking :=
  if Text.sameIgnoringCase role "goal" then { t with goal := some id }
  else
    match collection? role with
    | some c => t.add c id
    | none => t

/-- The object a scene describes; a colour that is none leaves it white. -/
def SceneObject.toObject (o : SceneObject) : GameObject :=
  let object := GameObject.ofBox ⟨o.x, o.y, o.width, o.height⟩
  match o.color.map Color.ofText with
  | some (.ok color) => { object with color }
  | _ => object

def addObject (w : World) (o : SceneObject) : World :=
  let tracking := match o.role with
    | some role => track w.tracking o.id role
    | none => w.tracking
  { w with tracking, objects := w.objects.insert o.id (SceneObject.toObject o) }

/-- Sets a scene up in a world. The keys that are held and the events stay. -/
def setUp (s : Scene) (w : World) : World :=
  let w : World :=
    { w with
      score := 0, ended := false, tracking := .empty, objects := .empty,
        player := s.player.getD w.player }
  s.objects.foldl addObject w

def defaultSize : Float32 := 32

def box? (j : Json) : Option Box := do
  match ← Json.list? Json.single? j with
  | [x, y, w, h] => some ⟨x, y, w, h⟩
  | _ => none

def object? (j : Json) : Option SceneObject := do
  let f ← j.fields? ["id", "x", "y", "width", "height", "color", "role"]
  let id ← f.required 0 Json.text?
  let x ← f.required 1 Json.single?
  let y ← f.required 2 Json.single?
  let width ← f.defaulted 3 defaultSize Json.single?
  let height ← f.defaulted 4 defaultSize Json.single?
  let color ← f.defaulted 5 none (Json.orNull? Json.text?)
  let role ← f.defaulted 6 none (Json.orNull? Json.text?)
  some ⟨id, x, y, width, height, color, role⟩

def ofJson? (j : Json) : Option Scene := do
  let f ← j.fields? ["player", "objects"]
  let player ← f.defaulted 0 none (Json.orNull? box?)
  let objects ← f.defaulted 1 [] (Json.list? object?)
  some ⟨player, objects⟩

end Scene

/-- What a program is started with. -/
structure Config where
  title : Option String
  width : Option Float32
  height : Option Float32
  background : Option (List Float32)
  script : Option String
  watch : Bool
  scene : Scene

namespace Config

def standard : Config := ⟨none, none, none, none, none, false, .empty⟩

def background? (j : Json) : Option (List Float32) :=
  (Json.list? Json.single? j).filter (·.length == 3)

def ofJson? (j : Json) : Option Config := do
  let f ← j.fields? ["window_title", "window_width", "window_height", "background_color",
      "script", "watch", "scene"]
  let title ← f.optional 0 (Json.orNull? Json.text?)
  let width ← f.optional 1 (Json.orNull? Json.single?)
  let height ← f.optional 2 (Json.orNull? Json.single?)
  let background ← f.optional 3 (Json.orNull? background?)
  let script ← f.optional 4 (Json.orNull? Json.text?)
  let watch ← f.defaulted 5 false Json.bool?
  let scene ← f.defaulted 6 .empty Scene.ofJson?
  some ⟨title, width, height, background, script, watch, scene⟩

/-- A configuration from a text that holds nothing else. -/
def ofText? (source : String) : Option Config := (Json.read? source).bind ofJson?

end Config

end BlockStudio
