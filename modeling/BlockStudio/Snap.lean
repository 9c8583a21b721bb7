import BlockStudio.Layout

/-!
Snapping a dragged group of blocks to the program. Each box of the layout offers places where the
group may attach, each at a distance. The first of the nearest places within a threshold is taken. A
group with a hat at its head never snaps, and nothing is ever put in front of a hat.
-/
namespace BlockStudio

inductive SnapTarget where
  /-- Right after a block, in its container. -/
  | appendAfter (id : BlockId)
  /-- In front of a block that heads its container. -/
  | prependBefore (id : BlockId)
  /-- At the front of a slot. -/
  | nest (owner : BlockId) (slot : Slot)
deriving Repr, DecidableEq

structure SnapCandidate where
  target : SnapTarget
  distance : Float32
deriving Repr

/-- The outline of a dragged group on the canvas. -/
structure Payload where
  topLeft : Point
  height : Float32
  headIsHat : Bool

namespace Payload

def topCenter (p : Payload) : Point := p.topLeft + ⟨Layout.blockWidth * 0.5, 0⟩

def bottomCenter (p : Payload) : Point := p.topLeft + ⟨Layout.blockWidth * 0.5, p.height⟩

end Payload

namespace Snap

/-- The places that a block offers, in the order in which they are tried. -/
def offers (l : Layout) (p : Payload) (b : BlockBox) : List SnapCandidate :=
  let after : SnapCandidate := ⟨.appendAfter b.id, p.topCenter.distance b.rect.bottomCenter⟩
  let before : SnapCandidate := ⟨.prependBefore b.id, p.bottomCenter.distance b.rect.topCenter⟩
  let inside := (l.slotsOf b.id).map fun s =>
    (⟨.nest s.owner s.slot, p.topCenter.distance s.rect.center⟩ : SnapCandidate)
  after :: ((if b.isFirst && !b.isHat then [before] else []) ++ inside)

/-- All places that a layout offers, in the order in which they are tried. -/
def candidates (l : Layout) (p : Payload) : List SnapCandidate := l.blocks.flatMap (offers l p)

/-- Keeps the better of the best place so far and one more. -/
def consider (threshold : Float32) (best : Option SnapCandidate) (c : SnapCandidate) :
    Option SnapCandidate :=
  if c.distance > threshold then best
  else
    match best with
    | none => some c
    | some b => if c.distance < b.distance then some c else some b

/-- The place where a group attaches, if there is one. -/
def resolve? (l : Layout) (p : Payload) (threshold : Float32) : Option SnapCandidate :=
  if p.headIsHat || !threshold.isFinite then none
  else (candidates l p).foldl (consider threshold) none

end Snap

end BlockStudio
