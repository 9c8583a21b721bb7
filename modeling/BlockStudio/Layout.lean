import BlockStudio.Graph

/-!
The geometry of placed blocks on the canvas. Blocks of a list stand below each other; the blocks of
a slot stand inside their owner, moved to the right. A layout lists the boxes of all blocks and
slots in pre-order.
-/
namespace BlockStudio

structure BlockBox where
  id : BlockId
  rect : Rect
  location : Location
  isHat : Bool
  /-- The number of slots around the block. -/
  depth : Nat
deriving Repr

structure SlotBox where
  owner : BlockId
  slot : Slot
  rect : Rect
deriving Repr

structure Layout where
  blocks : List BlockBox
  slots : List SlotBox
deriving Repr

def BlockBox.isFirst (b : BlockBox) : Bool := b.location.index == 0

namespace Layout

def blockWidth : Float32 := 200
def blockHeight : Float32 := 36
def slotIndent : Float32 := 20
def emptySlotHeight : Float32 := 24
def elseBarHeight : Float32 := 28
def footerHeight : Float32 := 16

section Height
variable {ι : Type}

mutual

def height : Block ι → Float32
  | ⟨_, _, _, none, _⟩ => blockHeight
  | ⟨_, _, _, some bs, none⟩ => blockHeight + slotHeight bs + footerHeight
  | ⟨_, _, _, some bs, some es⟩ =>
    blockHeight + slotHeight bs + footerHeight + (elseBarHeight + slotHeight es)

/-- The height of a slot: a fixed height when it is empty. -/
def slotHeight : List (Block ι) → Float32
  | [] => emptySlotHeight
  | b :: rest => stackHeight (0 + height b) rest

/-- The height of a list of blocks, added to `sum` from the top. -/
def stackHeight (sum : Float32) : List (Block ι) → Float32
  | [] => sum
  | b :: rest => stackHeight (sum + height b) rest

end

def listHeight (bs : List (Block ι)) : Float32 := stackHeight 0 bs

end Height

def empty : Layout := ⟨[], []⟩

instance : Append Layout := ⟨fun a b => ⟨a.blocks ++ b.blocks, a.slots ++ b.slots⟩⟩

@[simp] theorem blocks_append (a b : Layout) : (a ++ b).blocks = a.blocks ++ b.blocks := rfl

@[simp] theorem slots_append (a b : Layout) : (a ++ b).slots = a.slots ++ b.slots := rfl

/-- The top of the second slot, when the slots of a block begin at `top`. -/
def elseTop (top : Float32) (children : Option (List PlacedBlock)) : Float32 :=
  (match children with
    | none => top
    | some bs => top + slotHeight bs) + elseBarHeight

mutual

/-- The boxes of a block with its top left corner at `corner`, and of all blocks in it. -/
def ofBlock (corner : Point) (here : Location) (depth : Nat) : PlacedBlock → Layout
  | ⟨id, type, values, children, elseChildren⟩ =>
    let bottom := corner.y + height (⟨id, type, values, children, elseChildren⟩ : PlacedBlock)
    let box : BlockBox :=
      ⟨id, .ofSides corner.x corner.y (corner.x + blockWidth) bottom, here, isHatType type, depth⟩
    let top := corner.y + blockHeight
    ⟨[box], []⟩ ++ ofSlot corner.x top id .thenSlot depth children
      ++ ofSlot corner.x (elseTop top children) id .elseSlot depth elseChildren

/-- The boxes of a slot and of the blocks in it; `x` is the left edge of the owner. -/
def ofSlot (x top : Float32) (owner : BlockId) (slot : Slot) (depth : Nat) :
    Option (List PlacedBlock) → Layout
  | none => empty
  | some bs =>
    let left := x + slotIndent
    let box : SlotBox := ⟨owner, slot, .ofSides left top (x + blockWidth) (top + slotHeight bs)⟩
    ⟨[], [box]⟩ ++ ofList ⟨left, top⟩ (.slot owner slot) 0 (depth + 1) bs

/-- The boxes of a list of blocks, from the block with the given index on. -/
def ofList (corner : Point) (container : Container) (index depth : Nat) : List PlacedBlock → Layout
  | [] => empty
  | b :: rest =>
    ofBlock corner ⟨container, index⟩ depth b
      ++ ofList ⟨corner.x, corner.y + height b⟩ container (index + 1) depth rest

end

/-- The boxes of the blocks of some chains. -/
def ofChains : List Chain → Layout
  | [] => empty
  | c :: rest => ofList c.position (.chain c.id) 0 0 c.blocks ++ ofChains rest

def ofGraph (g : Graph) : Layout := ofChains g.chains

def block? (l : Layout) (id : BlockId) : Option BlockBox := l.blocks.find? (·.id == id)

/-- The last box that holds a point; no block inside it holds the point. -/
def hit? (l : Layout) (p : Point) : Option BlockBox :=
  (l.blocks.filter (·.rect.contains p)).getLast?

def slotsOf (l : Layout) (owner : BlockId) : List SlotBox := l.slots.filter (·.owner == owner)

end Layout

end BlockStudio
