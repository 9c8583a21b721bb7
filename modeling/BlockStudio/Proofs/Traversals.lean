import BlockStudio.Graph.Rebuild
import BlockStudio.Proofs.Places
import Mathlib.Data.List.Nodup

/-!
The searches, the layout and the counts of a program walk the same tree. The layout of a program
with some blocks at a place has the layout of these blocks in it, which says where each box comes
from. Main statement: where ids tell blocks and chains apart, a block is found just where it is
located, a layout shows the blocks in pre-order, each at its location and with its slots, and a
point hits the last box that holds it, inside of which no other box does.
-/
namespace BlockStudio

/-- The number of slots around a place. -/
def Place.depth : Place → Nat
  | .chain .. => 0
  | .slot outer .. => outer.depth + 1

namespace Block
variable {ι : Type}

/-- The slots that a block has. -/
def slots (b : Block ι) : List Slot := [.thenSlot, .elseSlot].filter fun s => (b.slot s).isSome

/-- The blocks nested in a block, in pre-order and each with its slots emptied. -/
def inner (b : Block ι) : List (Block ι) := preorderSlot b.children ++ preorderSlot b.elseChildren

mutual

theorem count_forget : ∀ b : Block ι, b.forget.count = b.count
  | ⟨_, _, _, children, elseChildren⟩ => by
    simp only [forget, count, countSlot_forget children, countSlot_forget elseChildren]

theorem countSlot_forget : ∀ s : Option (List (Block ι)), countSlot (forgetSlot s) = countSlot s
  | none => rfl
  | some bs => countList_forget bs

theorem countList_forget : ∀ bs : List (Block ι), countList (forgetList bs) = countList bs
  | [] => rfl
  | b :: rest => by simp only [forgetList, countList, count_forget b, countList_forget rest]

end

end Block

namespace Layout

theorem append_assoc (a b c : Layout) : a ++ b ++ c = a ++ (b ++ c) := by
  show Layout.mk _ _ = Layout.mk _ _
  simp only [blocks_append, slots_append, List.append_assoc]

@[simp] theorem append_empty (a : Layout) : a ++ empty = a := by
  show Layout.mk _ _ = a
  simp [empty]

/-- The boxes of one layout stand in another one without a gap. -/
def IsPart (part l : Layout) : Prop := ∃ front back, l = front ++ part ++ back

theorem IsPart.left (a b : Layout) : a.IsPart (a ++ b) := ⟨empty, b, rfl⟩

theorem IsPart.right (a b : Layout) : b.IsPart (a ++ b) := ⟨a, empty, (append_empty _).symm⟩

theorem IsPart.trans {a b c : Layout} (h : a.IsPart b) (h' : b.IsPart c) : a.IsPart c := by
  obtain ⟨front, back, rfl⟩ := h
  obtain ⟨front', back', rfl⟩ := h'
  exact ⟨front' ++ front, back ++ back', by simp only [append_assoc]⟩

theorem exists_ofList_isPart (corner : Point) (container : Container) (index depth : Nat)
    (bs cs : List PlacedBlock) :
    ∃ corner', (ofList corner' container (index + bs.length) depth cs).IsPart
      (ofList corner container index depth (bs ++ cs)) := by
  induction bs generalizing corner index with
  | nil => exact ⟨corner, .right empty _⟩
  | cons b rest ih =>
    obtain ⟨corner', hrest⟩ := ih ⟨corner.x, corner.y + height b⟩ (index + 1)
    rw [Nat.add_assoc, Nat.add_comm 1] at hrest
    exact ⟨corner', hrest.trans (.right _ _)⟩

/-- The layout of a list has the layout of each of its blocks in it. -/
theorem exists_ofBlock_isPart (corner : Point) (container : Container) (depth : Nat)
    (before after : List PlacedBlock) (b : PlacedBlock) :
    ∃ corner', (ofBlock corner' ⟨container, before.length⟩ depth b).IsPart
      (ofList corner container 0 depth (before ++ b :: after)) := by
  obtain ⟨corner', hrest⟩ := exists_ofList_isPart corner container 0 depth before (b :: after)
  rw [Nat.zero_add] at hrest
  exact ⟨corner', .trans (.left _ _) hrest⟩

theorem ofSlot_isPart (x top : Float32) (owner : BlockId) (s : Slot) (depth : Nat)
    (bs : List PlacedBlock) :
    (ofList ⟨x + slotIndent, top⟩ (.slot owner s) 0 (depth + 1) bs).IsPart
      (ofSlot x top owner s depth (some bs)) :=
  .right _ _

/-- The layout of a block has the layout of what is in its slots in it. -/
theorem exists_ofList_isPart_setSlot (corner : Point) (here : Location) (depth : Nat)
    (owner : PlacedBlock) (s : Slot) (bs : List PlacedBlock) :
    ∃ corner', (ofList corner' (.slot owner.id s) 0 (depth + 1) bs).IsPart
      (ofBlock corner here depth (owner.setSlot s bs)) := by
  obtain ⟨id, type, values, children, elseChildren⟩ := owner
  cases s with
  | thenSlot =>
    exact ⟨_, (ofSlot_isPart _ _ id .thenSlot depth bs).trans (.trans (.right _ _) (.left _ _))⟩
  | elseSlot => exact ⟨_, (ofSlot_isPart _ _ id .elseSlot depth bs).trans (.right _ _)⟩

theorem ofChains_isPart (before : List Chain) (c : Chain) (after : List Chain) :
    (ofList c.position (.chain c.id) 0 0 c.blocks).IsPart (ofChains (before ++ c :: after)) := by
  induction before with
  | nil => exact .left _ _
  | cons d rest ih => exact ih.trans (.right _ _)

/-- The list at a place is laid out as a part of the layout of the chains. The induction is on the
nesting of the place: what is in a slot is part of its owner, and the owner is part of the outer
place. -/
theorem exists_isPart_fill (p : Place) (bs : List PlacedBlock) :
    ∃ corner, (ofList corner p.container 0 p.depth bs).IsPart (ofChains (p.fill bs)) := by
  induction p generalizing bs with
  | chain before id position after =>
    exact ⟨position, ofChains_isPart before ⟨id, position, bs⟩ after⟩
  | slot outer before owner s after ih =>
    obtain ⟨corner, houter⟩ := ih (before ++ owner.setSlot s bs :: after)
    obtain ⟨corner', hblock⟩ :=
      exists_ofBlock_isPart corner outer.container outer.depth before after (owner.setSlot s bs)
    obtain ⟨corner'', hslot⟩ :=
      exists_ofList_isPart_setSlot corner' ⟨outer.container, before.length⟩ outer.depth owner s bs
    exact ⟨corner'', hslot.trans (hblock.trans houter)⟩

/-- The layout of a program has the layout of each of its blocks in it, at the location of the
block. -/
theorem exists_isPart_ofGraph {g : Graph} {p : Place}
    {before after : List PlacedBlock} {b : PlacedBlock}
    (hp : g.chains = p.fill (before ++ b :: after)) :
    ∃ corner, (ofBlock corner ⟨p.container, before.length⟩ p.depth b).IsPart (ofGraph g) := by
  obtain ⟨corner, hfill⟩ := exists_isPart_fill p (before ++ b :: after)
  obtain ⟨corner', hblock⟩ := exists_ofBlock_isPart corner p.container p.depth before after b
  rw [ofGraph, hp]
  exact ⟨corner', hblock.trans hfill⟩

/-- The box of a block comes before the boxes of the blocks nested in it. -/
theorem exists_boxes_ofBlock (corner : Point) (here : Location) (depth : Nat) (b : PlacedBlock) :
    ∃ rect rest, (ofBlock corner here depth b).blocks = ⟨b.id, rect, here, b.isHat, depth⟩ :: rest ∧
      rest.map (·.id) = b.inner.map (·.id) := by
  obtain ⟨id, type, values, children, elseChildren⟩ := b
  exact ⟨_, _, rfl, by simp [Block.inner, ids_ofSlot]⟩

theorem exists_boxes_ofGraph {g : Graph} {p : Place}
    {before after : List PlacedBlock} {b : PlacedBlock}
    (hp : g.chains = p.fill (before ++ b :: after)) : ∃ rect front rest back,
      (ofGraph g).blocks =
        front ++ ⟨b.id, rect, ⟨p.container, before.length⟩, b.isHat, p.depth⟩ :: (rest ++ back) ∧
        rest.map (·.id) = b.inner.map (·.id) := by
  obtain ⟨corner, front, back, hpart⟩ := exists_isPart_ofGraph hp
  obtain ⟨rect, rest, hblocks, hrest⟩ :=
    exists_boxes_ofBlock corner ⟨p.container, before.length⟩ p.depth b
  exact ⟨rect, front.blocks, rest, back.blocks, by simp [hpart, hblocks], hrest⟩

theorem slotsOf_append (a b : Layout) (owner : BlockId) :
    (a ++ b).slotsOf owner = a.slotsOf owner ++ b.slotsOf owner := by
  simp [slotsOf]

theorem elim_or_of_disjoint {x y : Option PlacedBlock} (h : x = none ∨ y = none) :
    (x.or y).elim [] Block.slots = x.elim [] Block.slots ++ y.elim [] Block.slots := by
  rcases h with rfl | rfl
  · rfl
  · cases x <;> simp

section Slots
variable {owner : BlockId}

mutual

theorem slotsOf_ofBlock (corner : Point) (here : Location) (depth : Nat) : ∀ b : PlacedBlock,
    (b.preorder.map (·.id)).Nodup →
      ((ofBlock corner here depth b).slotsOf owner).map (·.slot) =
        (b.find? owner).elim [] Block.slots
  | ⟨id, type, values, children, elseChildren⟩, h => by
    simp only [Block.preorder, Block.bare, List.map_cons, List.map_append,
      List.nodup_cons, List.mem_append, not_or] at h
    obtain ⟨⟨hfirst, hsecond⟩, hinner⟩ := h
    obtain ⟨hchildren, helse, hdisjoint⟩ := List.nodup_append.1 hinner
    simp only [ofBlock, slotsOf_append, List.map_append,
      slotsOf_ofSlot corner.x (corner.y + blockHeight) id .thenSlot depth children hchildren,
      slotsOf_ofSlot corner.x (elseTop (corner.y + blockHeight) children) id .elseSlot depth
        elseChildren helse]
    by_cases hid : id = owner
    · subst hid
      rw [Block.findSlot?_eq_none hfirst, Block.findSlot?_eq_none hsecond]
      cases children <;> cases elseChildren <;> simp [Block.find?, Block.slots, Block.slot, slotsOf]
    · have hone : Block.findSlot? owner children = none ∨
          Block.findSlot? owner elseChildren = none := by
        by_cases hmem : owner ∈ (Block.preorderSlot children).map (·.id)
        · exact .inr (Block.findSlot?_eq_none fun helse => hdisjoint owner hmem owner helse rfl)
        · exact .inl (Block.findSlot?_eq_none hmem)
      simp [Block.find?, hid, elim_or_of_disjoint hone, slotsOf]

/-- A slot has a box of its own, before the boxes of the slots in it. -/
theorem slotsOf_ofSlot (x top : Float32) (id : BlockId) (s : Slot) (depth : Nat) :
    ∀ content : Option (List PlacedBlock), ((Block.preorderSlot content).map (·.id)).Nodup →
      ((ofSlot x top id s depth content).slotsOf owner).map (·.slot) =
        (if id = owner ∧ content.isSome then [s] else []) ++
          (Block.findSlot? owner content).elim [] Block.slots
  | none, _ => by simp [ofSlot, empty, slotsOf, Block.findSlot?]
  | some bs, h => by
    simp only [ofSlot, slotsOf_append, List.map_append, Block.findSlot?,
      slotsOf_ofList ⟨x + slotIndent, top⟩ (.slot id s) 0 (depth + 1) bs h]
    by_cases hid : id = owner <;> simp [slotsOf, hid]

theorem slotsOf_ofList (corner : Point) (container : Container) (index depth : Nat) :
    ∀ bs : List PlacedBlock,
    (Block.ids bs).Nodup →
      ((ofList corner container index depth bs).slotsOf owner).map (·.slot) =
        (Block.findList? owner bs).elim [] Block.slots
  | [], _ => rfl
  | b :: rest, h => by
    rw [Block.ids, Block.preorderList, List.map_append] at h
    obtain ⟨hb, hrest, hdisjoint⟩ := List.nodup_append.1 h
    have hone : b.find? owner = none ∨ Block.findList? owner rest = none := by
      by_cases hmem : owner ∈ b.preorder.map (·.id)
      · exact .inr (Block.findList?_eq_none fun hin => hdisjoint owner hmem owner hin rfl)
      · exact .inl (Block.find?_eq_none hmem)
    rw [ofList, slotsOf_append, List.map_append,
      slotsOf_ofBlock corner ⟨container, index⟩ depth b hb,
      slotsOf_ofList ⟨corner.x, corner.y + height b⟩ container (index + 1) depth rest hrest,
      Block.findList?, elim_or_of_disjoint hone]

end

theorem slotsOf_ofChains : ∀ cs : List Chain, ((Graph.preorderChains cs).map (·.id)).Nodup →
    ((ofChains cs).slotsOf owner).map (·.slot) =
      (cs.findSome? fun c => Block.findList? owner c.blocks).elim [] Block.slots
  | [], _ => rfl
  | c :: rest, h => by
    rw [Graph.preorderChains, List.flatMap_cons, List.map_append] at h
    obtain ⟨hc, hrest, hdisjoint⟩ := List.nodup_append.1 h
    rw [ofChains, slotsOf_append, List.map_append,
      slotsOf_ofList c.position (.chain c.id) 0 0 c.blocks hc, slotsOf_ofChains rest hrest,
      List.findSome?_cons]
    by_cases hmem : owner ∈ Block.ids c.blocks
    · have hnone : (rest.findSome? fun c => Block.findList? owner c.blocks) = none := by
        rw [List.findSome?_eq_none_iff]
        intro d hd
        refine Block.findList?_eq_none fun hin => ?_
        obtain ⟨x, hx, hxid⟩ := List.mem_map.1 hin
        exact hdisjoint owner hmem owner
          (List.mem_map.2 ⟨x, List.mem_flatMap.2 ⟨d, hd, hx⟩, hxid⟩) rfl
      cases Block.findList? owner c.blocks <;> simp [hnone]
    · simp [Block.findList?_eq_none hmem]

end Slots

section Hits
variable {l : Layout} {point : Point} {box : BlockBox}

theorem hit?_eq_none_iff :
    l.hit? point = none ↔ ∀ box ∈ l.blocks, box.rect.contains point = false := by
  simp [hit?]

theorem hit?_eq_some_iff : l.hit? point = some box ↔ box.rect.contains point = true ∧
    ∃ front back, l.blocks = front ++ box :: back ∧ ∀ later ∈ back,
    later.rect.contains point = false := by
  rw [hit?, List.getLast?_eq_some_iff]
  constructor
  · rintro ⟨hits, hhits⟩
    obtain ⟨before, rest, hl, -, hrest⟩ := List.filter_eq_append_iff.1 hhits
    obtain ⟨between, back, rfl, -, hholds, hback⟩ := List.filter_eq_cons_iff.1 hrest
    refine ⟨hholds, before ++ between, back, by simp [hl], ?_⟩
    simpa using hback
  · rintro ⟨hholds, front, back, hl, hback⟩
    have hnone : back.filter (·.rect.contains point) = [] := by simpa using hback
    exact ⟨front.filter (·.rect.contains point), by simp [hl, hholds, hnone]⟩

end Hits

end Layout

namespace Graph
variable {g : Graph} {p : Place} {before after : List PlacedBlock} {b : PlacedBlock} {id : BlockId}

theorem exists_place_of_locate? {l : Location} (h : g.locate? id = some l) :
    ∃ p before b after, g.chains = Place.fill p (before ++ b :: after) ∧ b.id = id ∧
      l = ⟨p.container, before.length⟩ := by
  rw [Layout.locate?_eq_block?, Option.map_eq_some_iff] at h
  obtain ⟨box, hbox, rfl⟩ := h
  obtain ⟨p, before, b, after, hp, hid, hlocation, -⟩ := (Layout.shows_ofGraph g).blocks box
    (List.mem_of_find?_eq_some hbox)
  exact ⟨p, before, b, after, hp, hid ▸ by simpa using List.find?_some hbox, hlocation⟩

namespace Distinct
variable (hg : g.Distinct)
include hg

theorem box_eq {box box' : BlockBox} (hbox : box ∈ (Layout.ofGraph g).blocks)
    (hbox' : box' ∈ (Layout.ofGraph g).blocks) (hid : box.id = box'.id) : box = box' :=
  List.inj_on_of_nodup_map hg.nodup_boxes hbox hbox' hid

theorem locate?_fill (hp : g.chains = p.fill (before ++ b :: after)) :
    g.locate? b.id = some ⟨p.container, before.length⟩ := by
  obtain ⟨rect, front, rest, back, hblocks, -⟩ := Layout.exists_boxes_ofGraph hp
  have hbox : (⟨b.id, rect, ⟨p.container, before.length⟩, b.isHat, p.depth⟩ : BlockBox) ∈
      (Layout.ofGraph g).blocks := by
    simp [hblocks]
  exact hg.locate?_of_mem hbox

theorem exists_place_of_find? (h : g.find? id = some b) :
    b.id = id ∧ ∃ p before after, g.chains = Place.fill p (before ++ b :: after) := by
  obtain ⟨p, before, b', after, hp, rfl⟩ := exists_place_of_mem_ids (mem_ids_of_find? h)
  obtain rfl : b' = b := Option.some.inj ((hg.find?_fill hp).symm.trans h)
  exact ⟨rfl, p, before, after, hp⟩

theorem isSome_locate? (id : BlockId) : (g.locate? id).isSome = (g.find? id).isSome := by
  rw [Bool.eq_iff_iff, Option.isSome_iff_exists, Option.isSome_iff_exists]
  constructor
  · rintro ⟨l, hl⟩
    obtain ⟨p, before, b, after, hp, rfl, -⟩ := exists_place_of_locate? hl
    exact ⟨b, hg.find?_fill hp⟩
  · rintro ⟨b, hb⟩
    obtain ⟨rfl, p, before, after, hp⟩ := hg.exists_place_of_find? hb
    exact ⟨_, hg.locate?_fill hp⟩

theorem slotsOf_eq (owner : BlockId) :
    ((Layout.ofGraph g).slotsOf owner).map (·.slot) = (g.find? owner).elim [] Block.slots :=
  Layout.slotsOf_ofChains g.chains hg.blocks

end Distinct

theorem length_boxes (g : Graph) : (Layout.ofGraph g).blocks.length = g.blockCount := by
  rw [← List.length_map (f := (·.id)), Layout.ids_ofGraph, ids, List.length_map, preorder,
    preorderChains_eq, Block.length_preorderList, blockCount]

/-- Chains that are left out of the document have no blocks. -/
theorem blockCount_toDocument (g : Graph) : g.toDocument.blockCount = g.blockCount := by
  have hchains : ∀ cs : List Chain,
      Block.countList
        (((cs.filter fun c => !c.blocks.isEmpty).map chainToDocument).flatMap (·.blocks)) =
        Block.countList (cs.flatMap (·.blocks)) := by
    intro cs
    induction cs with
    | nil => rfl
    | cons c rest ih =>
      rw [List.flatMap_cons, Block.countList_append, ← ih, List.filter_cons]
      split
      · rw [List.map_cons, List.flatMap_cons, Block.countList_append, chainToDocument,
          Block.countList_forget]
      · rename_i hempty
        have hblocks : c.blocks = [] := by simpa using hempty
        rw [hblocks, Block.countList, Nat.zero_add]
  exact hchains g.chains

end Graph

namespace Layout

/-- A layout shows each block of a program once, in pre-order: at its location, with the hat flag of
its type, as deep as there are slots around it, and with a box for each slot that it has. -/
structure Draws (l : Layout) (g : Graph) : Prop where
  ids_eq : l.blocks.map (·.id) = g.ids
  boxes : ∀ box ∈ l.blocks, g.locate? box.id = some box.location ∧ ∃ p before b after,
    g.chains = Place.fill p (before ++ b :: after) ∧ g.find? box.id = some b ∧
    box.isHat = isHatType b.type ∧
      box.location.container = p.container ∧ box.depth = p.depth
  slots : ∀ owner, (l.slotsOf owner).map (·.slot) = (g.find? owner).elim [] Block.slots

/-- A box of a layout holds a point, and none of the boxes after it nor of the blocks nested in its
block does. -/
structure IsHit (g : Graph) (point : Point) (box : BlockBox) : Prop where
  holds : box.rect.contains point = true
  last : ∃ front back, (ofGraph g).blocks = front ++ box :: back ∧
    ∀ later ∈ back, later.rect.contains point = false
  inmost : ∀ b, g.find? box.id = some b → ∀ other ∈ (ofGraph g).blocks,
    other.id ∈ b.inner.map (·.id) →
    other.rect.contains point = false

variable {g : Graph} (hg : g.Distinct)
include hg

theorem draws_ofGraph : (ofGraph g).Draws g := by
  refine ⟨ids_ofGraph g, fun box hbox => ⟨hg.locate?_of_mem hbox, ?_⟩, hg.slotsOf_eq⟩
  obtain ⟨p, before, b, after, hp, hid, -⟩ := (shows_ofGraph g).blocks box hbox
  obtain ⟨rect, front, rest, back, hblocks, -⟩ := exists_boxes_ofGraph hp
  have hbox' : box = ⟨b.id, rect, ⟨p.container, before.length⟩, b.isHat, p.depth⟩ :=
    hg.box_eq hbox (by simp [hblocks]) hid
  rw [hbox']
  exact ⟨p, before, b, after, hp, hg.find?_fill hp, rfl, rfl, rfl⟩

/-- The box that is hit is inmost in its block: the boxes of the nested blocks follow the box of
their block, and no other box has an id of theirs. -/
theorem isHit_of_hit? {point : Point} {box : BlockBox} (h : (ofGraph g).hit? point = some box) :
    IsHit g point box := by
  obtain ⟨hholds, front, back, hsplit, hback⟩ := hit?_eq_some_iff.1 h
  refine ⟨hholds, ⟨front, back, hsplit, hback⟩, fun b hfind other hother hinner => hback other ?_⟩
  obtain ⟨hid, p, before, after, hp⟩ := hg.exists_place_of_find? hfind
  obtain ⟨rect, front', rest, back', hblocks, hrest⟩ := exists_boxes_ofGraph hp
  have hbox : box = ⟨b.id, rect, ⟨p.container, before.length⟩, b.isHat, p.depth⟩ :=
    hg.box_eq (by simp [hsplit]) (by simp [hblocks]) hid.symm
  obtain rfl : back = rest ++ back' := by
    have hnodup := List.Nodup.of_map _ hg.nodup_boxes
    rw [hblocks, ← hbox, List.nodup_middle, List.nodup_cons, List.mem_append, not_or] at hnodup
    rw [hsplit, ← hbox] at hblocks
    exact ((List.append_cons_inj_of_notMem hnodup.1.1 hnodup.1.2).1 hblocks.symm).2.2.symm
  rw [← hrest] at hinner
  obtain ⟨inner, hin, heq⟩ := List.mem_map.1 hinner
  obtain rfl : inner = other := hg.box_eq (by simp [hblocks, hin]) hother heq
  exact List.mem_append_left _ hin

end Layout

/-- The searches by id, the layout and the counts of a program agree. A block is found just where it
is located and edited; the layout shows every block once and has as many boxes as there are blocks,
in the program and in its document; and a point hits the last box that holds it, inside of which no
box does. -/
theorem traversals_agree {g : Graph} (hg : g.Distinct) :
    (∀ id, (g.locate? id).isSome = (g.find? id).isSome) ∧
    (∀ id l b, g.locate? id = some l → g.find? id = some b →
      (g.container? l.container).bind (·[l.index]?) = some b ∧
        ∀ f, ∃ p before after, g.chains = Place.fill p (before ++ b :: after) ∧
          g.editBlock id f = { g with chains := p.fill (before ++ f b :: after) }) ∧
    (Layout.ofGraph g).Draws g ∧
    (Layout.ofGraph g).blocks.length = g.blockCount ∧ g.toDocument.blockCount = g.blockCount ∧
    ∀ point, ((Layout.ofGraph g).hit? point = none ↔
        ∀ box ∈ (Layout.ofGraph g).blocks, box.rect.contains point = false) ∧
      ∀ box, (Layout.ofGraph g).hit? point = some box → Layout.IsHit g point box := by
  refine ⟨hg.isSome_locate?, ?_, Layout.draws_ofGraph hg, g.length_boxes,
    g.blockCount_toDocument, fun point => ?_⟩
  · intro id l b hlocate hfind
    obtain ⟨rfl, p, before, after, hp⟩ := hg.exists_place_of_find? hfind
    obtain rfl : l = ⟨p.container, before.length⟩ :=
      Option.some.inj (hlocate.symm.trans (hg.locate?_fill hp))
    refine ⟨?_, fun f => ⟨p, before, after, hp, hg.editBlock_fill hp f⟩⟩
    simp [hg.container?_fill hp]
  · exact ⟨Layout.hit?_eq_none_iff, fun box => Layout.isHit_of_hit? hg⟩

/-- Two chains, one with a block in both slots of a branch and in a loop inside it. -/
def branchingGraph : Graph where
  chains :=
    [⟨1, ⟨0, 0⟩, [⟨1, "on_start", .empty, none, none⟩,
      ⟨2, "if_else", .empty,
        some [⟨3, "wait", .empty, none, none⟩,
          ⟨4, "repeat_n", .empty, some [⟨5, "wait", .empty, none, none⟩], none⟩],
          some [⟨6, "hide_obj", .empty, none, none⟩]⟩]⟩,
    ⟨2, ⟨300, 0⟩, [⟨7, "wait", .empty, none, none⟩]⟩]
  variableNames := []
  lastBlockId := 7
  lastChainId := 2

theorem distinct_branchingGraph : branchingGraph.Distinct := ⟨by decide, by decide⟩

theorem traversals_agree_branchingGraph :
    branchingGraph.Distinct ∧ (Layout.ofGraph branchingGraph).Draws branchingGraph ∧
    (Layout.ofGraph branchingGraph).blocks.length = 7 ∧
    (branchingGraph.container? (.slot 4 .thenSlot)).bind (·[0]?) =
      some ⟨5, "wait", .empty, none, none⟩ ∧
    ∃ box, (Layout.ofGraph branchingGraph).hit? ⟨50, 150⟩ = some box ∧ box.id = 5 ∧ box.depth = 2 ∧
      Layout.IsHit branchingGraph ⟨50, 150⟩ box := by
  obtain ⟨-, hfind, hdraws, hcount, -, hhit⟩ := traversals_agree distinct_branchingGraph
  have hbox : ((Layout.ofGraph branchingGraph).hit? ⟨50, 150⟩).map
      (fun box => (box.id, box.depth)) = some (5, 2) := by
    decide +kernel
  obtain ⟨box, hsome, heq⟩ := Option.map_eq_some_iff.1 hbox
  obtain ⟨hid, hdepth⟩ := Prod.mk.inj heq
  refine ⟨distinct_branchingGraph, hdraws, by rw [hcount]; decide, ?_, box, hsome, hid, hdepth, ?_⟩
  · exact (hfind 5 ⟨.slot 4 .thenSlot, 0⟩ _ (by decide) (by rfl)).1
  · exact (hhit ⟨50, 150⟩).2 box hsome

end BlockStudio
