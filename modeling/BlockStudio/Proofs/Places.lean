import BlockStudio.Layout
import BlockStudio.Proofs.Preorder

/-!
Places in a program. A place is a program with one list of blocks left open: the blocks of a chain,
or those of a slot of a block that itself stands at an outer place. Main statements: where ids tell
blocks and chains apart, looking up or changing the container of a place looks up or changes what
fills the place and nothing else, and each box of a layout shows a block or a slot at a place of the
program.
-/
namespace BlockStudio

inductive Place where
  | chain (before : List Chain) (id : ChainId) (position : Point) (after : List Chain)
  | slot (outer : Place) (before : List PlacedBlock) (owner : PlacedBlock) (s : Slot)
    (after : List PlacedBlock)

namespace Graph

def preorderChains (cs : List Chain) : List PlacedBlock :=
  cs.flatMap fun c => Block.preorderList c.blocks

theorem preorderChains_eq (cs : List Chain) :
    preorderChains cs = Block.preorderList (cs.flatMap (·.blocks)) := by
  induction cs with
  | nil => rfl
  | cons c rest ih =>
    rw [preorderChains, List.flatMap_cons, ← preorderChains, ih, List.flatMap_cons,
      Block.preorderList_append]

/-- All blocks of the program in pre-order, each with its slots emptied. -/
def preorder (g : Graph) : List PlacedBlock := preorderChains g.chains

def ids (g : Graph) : List BlockId := g.preorder.map (·.id)

def chainIds (g : Graph) : List ChainId := g.chains.map (·.id)

end Graph

namespace Place

def container : Place → Container
  | .chain _ id _ _ => .chain id
  | .slot _ _ owner s _ => .slot owner.id s

/-- The chains of the program with some blocks at the place. -/
def fill : Place → List PlacedBlock → List Chain
  | .chain before id position after, bs => before ++ ⟨id, position, bs⟩ :: after
  | .slot outer before owner s after, bs => outer.fill (before ++ owner.setSlot s bs :: after)

/-- The blocks that stand before those at the place. -/
def lead : Place → List PlacedBlock
  | .chain before _ _ _ => Graph.preorderChains before
  | .slot outer before owner s _ =>
    outer.lead ++ Block.preorderList before ++ (owner.setSlot s []).bare :: owner.beforeSlot s

/-- The blocks that stand after those at the place. -/
def trail : Place → List PlacedBlock
  | .chain _ _ _ after => Graph.preorderChains after
  | .slot outer _ owner s after => owner.afterSlot s ++ Block.preorderList after ++ outer.trail

theorem preorder_fill (p : Place) (bs : List PlacedBlock) :
    Graph.preorderChains (p.fill bs) = p.lead ++ Block.preorderList bs ++ p.trail := by
  induction p generalizing bs with
  | chain before id position after => simp [fill, lead, trail, Graph.preorderChains]
  | slot outer before owner s after ih =>
    rw [fill, ih]
    simp [lead, trail, Block.preorderList_append, Block.preorderList, Block.preorder_setSlot]

/-- What fills a place has no say in which chains there are. -/
theorem chainIds_fill (p : Place) (bs cs : List PlacedBlock) :
    (p.fill bs).map (·.id) = (p.fill cs).map (·.id) := by
  induction p generalizing bs cs with
  | chain before id position after => simp [fill]
  | slot outer before owner s after ih => exact ih _ _

section
variable {p : Place} {id : BlockId}

theorem id_of_lead_slot {outer : Place} {before after : List PlacedBlock}
    {owner : PlacedBlock} {s : Slot}
    (h : id ∉ (Place.slot outer before owner s after).lead.map (·.id)) :
    id ∉ outer.lead.map (·.id) ∧ id ∉ Block.ids before ∧ owner.id ≠ id ∧
    id ∉ (owner.beforeSlot s).map (·.id) := by
  have howner : (owner.setSlot s []).bare.id = owner.id := by cases s <;> rfl
  simp only [lead, List.map_append, List.map_cons, List.mem_append, List.mem_cons,
    howner, not_or] at h
  exact ⟨h.1.1, h.1.2, Ne.symm h.2.1, h.2.2⟩

/-- An edit of the blocks at a place is found when no block before them has the id. The induction is
on the nesting of the place: an edit in a slot is an edit of the block that has the slot, at the
outer place. -/
theorem editInChains_fill {f : PlacedBlock → PlacedBlock} {bs bs' : List PlacedBlock}
    (hlead : id ∉ p.lead.map (·.id)) (hedit : Block.editList? id f bs = some bs') :
    Graph.editInChains id f (p.fill bs) = p.fill bs' := by
  induction p generalizing bs bs' with
  | chain before cid position after =>
    simp only [fill]
    induction before with
    | nil => simp [Graph.editInChains, hedit]
    | cons c rest ih =>
      simp only [lead, Graph.preorderChains, List.flatMap_cons, List.map_append,
        List.mem_append, not_or] at hlead
      rw [List.cons_append, Graph.editInChains, Block.editList?_eq_none hlead.1]
      exact congrArg (c :: ·) (ih hlead.2)
  | slot outer before owner s after ih =>
    obtain ⟨houter, hbefore, hne, hslot⟩ := id_of_lead_slot hlead
    exact ih houter (Block.editList?_middle hbefore (Block.edit?_setSlot hne hslot hedit))

theorem findSome?_fill {bs : List PlacedBlock} {found : PlacedBlock}
    (hlead : id ∉ p.lead.map (·.id)) (hfind : Block.findList? id bs = some found) :
    (p.fill bs).findSome? (fun c => Block.findList? id c.blocks) = some found := by
  induction p generalizing bs with
  | chain before cid position after =>
    simp only [fill]
    induction before with
    | nil => simp [hfind]
    | cons c rest ih =>
      simp only [lead, Graph.preorderChains, List.flatMap_cons, List.map_append,
        List.mem_append, not_or] at hlead
      rw [List.cons_append, List.findSome?_cons, Block.findList?_eq_none hlead.1]
      exact ih hlead.2
  | slot outer before owner s after ih =>
    obtain ⟨houter, hbefore, hne, hslot⟩ := id_of_lead_slot hlead
    exact ih houter (Block.findList?_middle hbefore (Block.find?_setSlot hne hslot hfind))

end

end Place

namespace Graph

/-- The ids tell the blocks apart, and the chains. -/
structure Distinct (g : Graph) : Prop where
  blocks : g.ids.Nodup
  chains : g.chainIds.Nodup

theorem editChains_middle {id : ChainId} {f : Chain → Chain} {before after : List Chain}
    {c : Chain} (hid : c.id = id) (hbefore : id ∉ before.map (·.id)) :
    editChains id f (before ++ c :: after) = before ++ f c :: after := by
  induction before with
  | nil => simp [editChains, hid]
  | cons b rest ih =>
    simp only [List.map_cons, List.mem_cons, not_or] at hbefore
    rw [List.cons_append, editChains, if_neg (Ne.symm hbefore.1), ih hbefore.2]
    rfl

section
variable {g : Graph} {p : Place} {bs before after : List PlacedBlock} {b : PlacedBlock}

theorem ids_eq_of_fill (hp : g.chains = p.fill bs) :
    g.ids = p.lead.map (·.id) ++ (Block.ids bs ++ p.trail.map (·.id)) := by
  simp [ids, preorder, hp, p.preorder_fill, Block.ids]

/-- No block that stands before a block of a place has its id. -/
theorem Distinct.ids_before (hg : g.Distinct) (hp : g.chains = p.fill (before ++ b :: after)) :
    b.id ∉ p.lead.map (·.id) ∧ b.id ∉ Block.ids before := by
  have hown : b.id ∈ Block.ids (b :: after) := by
    simp [Block.ids, Block.preorderList, Block.preorder_eq, Block.bare]
  have hnodup := hg.blocks
  rw [ids_eq_of_fill hp, Block.ids_append] at hnodup
  obtain ⟨-, hrest, hlead⟩ := List.nodup_append.1 hnodup
  obtain ⟨-, -, hbefore⟩ := List.nodup_append.1 (List.nodup_append.1 hrest).1
  refine ⟨fun h => hlead b.id h b.id ?_ rfl, fun h => hbefore b.id h b.id hown rfl⟩
  exact List.mem_append_left _ (List.mem_append_right _ hown)

theorem Distinct.id_before (hg : g.Distinct) {id : ChainId} {position : Point}
    {front back : List Chain} (hp : g.chains = front ++ ⟨id, position, bs⟩ :: back) :
    id ∉ front.map (·.id) := by
  have hnodup := hg.chains
  rw [chainIds, hp, List.map_append, List.map_cons] at hnodup
  exact fun h => (List.nodup_append.1 hnodup).2.2 id h id List.mem_cons_self rfl

theorem Distinct.editBlock_fill (hg : g.Distinct) (hp : g.chains = p.fill (before ++ b :: after))
    (f : PlacedBlock → PlacedBlock) :
    g.editBlock b.id f = { g with chains := p.fill (before ++ f b :: after) } := by
  obtain ⟨hlead, hbefore⟩ := hg.ids_before hp
  rw [editBlock, hp, Place.editInChains_fill hlead
    (Block.editList?_middle hbefore (Block.edit?_self b))]

theorem Distinct.find?_fill (hg : g.Distinct) (hp : g.chains = p.fill (before ++ b :: after)) :
    g.find? b.id = some b := by
  obtain ⟨hlead, hbefore⟩ := hg.ids_before hp
  rw [find?, hp, Place.findSome?_fill hlead (Block.findList?_middle hbefore (Block.find?_self b))]

theorem Distinct.container?_fill (hg : g.Distinct) (hp : g.chains = p.fill bs) :
    g.container? p.container = some bs := by
  cases p with
  | chain front id position back =>
    have hfront : front.find? (·.id == id) = none := by
      rw [List.find?_eq_none]
      intro c hc heq
      exact hg.id_before hp (List.mem_map.2 ⟨c, hc, by simpa using heq⟩)
    simp [Place.container, container?, chain?, hp, Place.fill, List.find?_append, hfront]
  | slot outer front owner s back =>
    have houter : g.chains = outer.fill (front ++ owner.setSlot s bs :: back) := hp
    have hfind := hg.find?_fill houter
    have hid : (owner.setSlot s bs).id = owner.id := by cases s <;> rfl
    rw [hid] at hfind
    simp [Place.container, container?, hfind, Block.slot_setSlot]

theorem Distinct.editContainer?_fill (hg : g.Distinct) (hp : g.chains = p.fill bs)
    (f : List PlacedBlock → List PlacedBlock) :
    g.editContainer? p.container f = some { g with chains := p.fill (f bs) } := by
  have hcontainer := hg.container?_fill hp
  unfold editContainer?
  rw [hcontainer]
  cases p with
  | chain front id position back =>
    simp [Place.container, editChain, hp, Place.fill,
      editChains_middle (c := ⟨id, position, bs⟩) rfl (hg.id_before hp)]
  | slot outer front owner s back =>
    have houter : g.chains = outer.fill (front ++ owner.setSlot s bs :: back) := hp
    have hedit := hg.editBlock_fill houter (Block.mapSlot s f)
    have hid : (owner.setSlot s bs).id = owner.id := by cases s <;> rfl
    rw [hid, Block.mapSlot_setSlot] at hedit
    simp [Place.container, hedit, Place.fill]

end

end Graph

namespace Layout

mutual

theorem ids_ofBlock (corner : Point) (here : Location) (depth : Nat) :
    ∀ b : PlacedBlock, (ofBlock corner here depth b).blocks.map (·.id) = b.preorder.map (·.id)
  | ⟨id, type, values, children, elseChildren⟩ => by
    simp [ofBlock, Block.preorder, Block.bare, ids_ofSlot _ _ _ _ _ children,
      ids_ofSlot _ _ _ _ _ elseChildren]

theorem ids_ofSlot (x top : Float32) (owner : BlockId) (slot : Slot) (depth : Nat) :
    ∀ s : Option (List PlacedBlock),
      (ofSlot x top owner slot depth s).blocks.map (·.id) = (Block.preorderSlot s).map (·.id)
  | none => rfl
  | some bs => by simp [ofSlot, Block.preorderSlot, ids_ofList _ _ _ _ bs, Block.ids]

theorem ids_ofList (corner : Point) (container : Container) (index depth : Nat) :
    ∀ bs : List PlacedBlock,
      (ofList corner container index depth bs).blocks.map (·.id) = Block.ids bs
  | [] => rfl
  | b :: rest =>
    by simp [ofList, Block.ids, Block.preorderList, ids_ofBlock _ _ _ b, ids_ofList _ _ _ _ rest]

end

/-- A layout shows the blocks of the program in pre-order. -/
theorem ids_ofGraph (g : Graph) : (ofGraph g).blocks.map (·.id) = g.ids := by
  have hchains : ∀ cs : List Chain, (ofChains cs).blocks.map (·.id) =
      (Graph.preorderChains cs).map (·.id) := by
    intro cs
    induction cs with
    | nil => rfl
    | cons c rest ih => simp [ofChains, ih, ids_ofList, Graph.preorderChains, Block.ids]
  exact hchains g.chains

mutual

theorem locate?_eq_ofBlock (id : BlockId) (corner : Point) (here : Location) (depth : Nat) :
    ∀ b : PlacedBlock,
      b.locate? id here = ((ofBlock corner here depth b).blocks.find? (·.id == id)).map (·.location)
  | ⟨own, type, values, children, elseChildren⟩ => by
    rw [Block.locate?,
      locateSlot?_eq_ofSlot id corner.x (corner.y + blockHeight) own .thenSlot depth children,
      locateSlot?_eq_ofSlot id corner.x (elseTop (corner.y + blockHeight) children) own .elseSlot
        depth elseChildren]
    by_cases hown : own = id <;> simp [ofBlock, hown, Option.map_or]

theorem locateSlot?_eq_ofSlot (id : BlockId) (x top : Float32) (owner : BlockId)
    (slot : Slot) (depth : Nat) :
    ∀ s : Option (List PlacedBlock), Block.locateSlot? id (.slot owner slot) s =
      ((ofSlot x top owner slot depth s).blocks.find? (·.id == id)).map (·.location)
  | none => rfl
  | some bs => by
    rw [Block.locateSlot?,
      locateList?_eq_ofList id ⟨x + slotIndent, top⟩ (.slot owner slot) 0 (depth + 1) bs]
    simp [ofSlot]

theorem locateList?_eq_ofList (id : BlockId) (corner : Point) (container : Container)
    (index depth : Nat) :
    ∀ bs : List PlacedBlock, Block.locateList? id container index bs =
      ((ofList corner container index depth bs).blocks.find? (·.id == id)).map (·.location)
  | [] => rfl
  | b :: rest => by
    rw [Block.locateList?, locate?_eq_ofBlock id corner ⟨container, index⟩ depth b,
      locateList?_eq_ofList id ⟨corner.x, corner.y + height b⟩ container (index + 1) depth rest]
    simp [ofList, Option.map_or]

end

theorem locate?_eq_block? (g : Graph) (id : BlockId) :
    g.locate? id = ((ofGraph g).block? id).map (·.location) := by
  have hchains : ∀ cs : List Chain,
      cs.findSome? (fun c => Block.locateList? id (.chain c.id) 0 c.blocks) =
      ((ofChains cs).blocks.find? (·.id == id)).map (·.location) := by
    intro cs
    induction cs with
    | nil => rfl
    | cons c rest ih =>
      rw [List.findSome?_cons, locateList?_eq_ofList id c.position (.chain c.id) 0 0 c.blocks, ih]
      cases h : (ofList c.position (.chain c.id) 0 0 c.blocks).blocks.find? (·.id == id) <;>
        simp [ofChains, h]
  exact hchains g.chains

/-- Each box shows a block or a slot of the program at its place. -/
structure Shows (l : Layout) (cs : List Chain) : Prop where
  blocks : ∀ box ∈ l.blocks, ∃ p before b after,
    cs = Place.fill p (before ++ b :: after) ∧ box.id = b.id ∧
    box.location = ⟨p.container, before.length⟩ ∧ box.isHat = b.isHat
  slots : ∀ box ∈ l.slots, ∃ p bs, cs = Place.fill p bs ∧ p.container = .slot box.owner box.slot

theorem Shows.empty (cs : List Chain) : empty.Shows cs :=
  ⟨by simp [Layout.empty], by simp [Layout.empty]⟩

theorem Shows.append {l l' : Layout} {cs : List Chain} (h : l.Shows cs) (h' : l'.Shows cs) :
    (l ++ l').Shows cs := by
  refine ⟨?_, ?_⟩
  · simpa only [blocks_append, List.forall_mem_append] using ⟨h.blocks, h'.blocks⟩
  · simpa only [slots_append, List.forall_mem_append] using ⟨h.slots, h'.slots⟩

section
variable {cs : List Chain}

theorem Shows.ofBox {p : Place} {before after : List PlacedBlock} {b : PlacedBlock}
    (rect : Rect) (depth : Nat) (h : cs = p.fill (before ++ b :: after)) :
    (⟨[⟨b.id, rect, ⟨p.container, before.length⟩, b.isHat, depth⟩], []⟩ : Layout).Shows cs := by
  refine ⟨?_, by simp⟩
  simp only [List.mem_singleton, forall_eq]
  exact ⟨p, before, b, after, h, rfl, rfl, rfl⟩

theorem Shows.ofSlotBox {p : Place} {bs : List PlacedBlock} {owner : BlockId}
    {s : Slot} (rect : Rect) (h : cs = p.fill bs) (hcontainer : p.container = .slot owner s) :
    (⟨[], [⟨owner, s, rect⟩]⟩ : Layout).Shows cs := by
  refine ⟨by simp, ?_⟩
  simp only [List.mem_singleton, forall_eq]
  exact ⟨p, bs, h, hcontainer⟩

mutual

theorem shows_ofBlock (corner : Point) (depth : Nat) :
    ∀ (b : PlacedBlock) {p : Place} {before after : List PlacedBlock}, cs =
      p.fill (before ++ b :: after) →
      (ofBlock corner ⟨p.container, before.length⟩ depth b).Shows cs
  | ⟨id, type, values, children, elseChildren⟩, p, before, after, h => by
    have hfirst :=
      shows_ofSlot corner.x (corner.y + blockHeight) depth children (s := .thenSlot) rfl h
    have hsecond :=
      shows_ofSlot corner.x (elseTop (corner.y + blockHeight) children) depth elseChildren
        (s := .elseSlot) rfl h
    exact ((Shows.ofBox _ depth h).append hfirst).append hsecond
termination_by structural b => b

theorem shows_ofSlot (x top : Float32) (depth : Nat) :
    ∀ (content : Option (List PlacedBlock)) {p : Place} {owner : PlacedBlock} {s : Slot}
      {before after : List PlacedBlock}, owner.slot s = content →
        cs = p.fill (before ++ owner :: after) →
      (ofSlot x top owner.id s depth content).Shows cs
  | none, _, _, _, _, _, _, _ => .empty cs
  | some bs, p, owner, s, before, after, hslot, h => by
    have hinside : cs = (Place.slot p before owner s after).fill ([] ++ bs) := by
      rw [List.nil_append, Place.fill, Block.setSlot_of_slot hslot, h]
    exact (Shows.ofSlotBox _ hinside rfl).append (shows_ofList _ (depth + 1) bs hinside)
termination_by structural content => content

theorem shows_ofList (corner : Point) (depth : Nat) :
    ∀ (bs : List PlacedBlock) {p : Place} {before : List PlacedBlock}, cs = p.fill (before ++ bs) →
      (ofList corner p.container before.length depth bs).Shows cs
  | [], _, _, _ => .empty cs
  | b :: rest, p, before, h => by
    have hsplit : cs = p.fill (before ++ [b] ++ rest) := by simpa using h
    have hrest := shows_ofList ⟨corner.x, corner.y + height b⟩ depth rest hsplit
    rw [List.length_append, List.length_singleton] at hrest
    exact (shows_ofBlock corner depth b h).append hrest
termination_by structural bs => bs

end

/-- Every box of a layout shows what is in the program. -/
theorem shows_ofGraph (g : Graph) : (ofGraph g).Shows g.chains := by
  have hchains : ∀ front back : List Chain, g.chains = front ++ back →
      (ofChains back).Shows g.chains := by
    intro front back h
    induction back generalizing front with
    | nil => exact .empty _
    | cons c rest ih =>
      have hfill : g.chains = (Place.chain front c.id c.position rest).fill ([] ++ c.blocks) := h
      have hc := shows_ofList c.position 0 c.blocks hfill
      exact hc.append (ih (front ++ [c]) (by simpa using h))
  exact hchains [] g.chains rfl

end

end Layout

namespace Graph
variable {g : Graph}

theorem Distinct.nodup_boxes (hg : g.Distinct) : ((Layout.ofGraph g).blocks.map (·.id)).Nodup := by
  rw [Layout.ids_ofGraph]
  exact hg.blocks

/-- A block that a layout shows is located at its place. -/
theorem Distinct.locate?_of_mem (hg : g.Distinct) {box : BlockBox}
    (hbox : box ∈ (Layout.ofGraph g).blocks) :
    g.locate? box.id = some box.location := by
  have hnodup := hg.nodup_boxes
  have hfind : (Layout.ofGraph g).blocks.find? (·.id == box.id) = some box := by
    obtain ⟨front, back, hsplit⟩ := List.append_of_mem hbox
    rw [hsplit] at hnodup ⊢
    have hfront : front.find? (·.id == box.id) = none := by
      rw [List.find?_eq_none]
      intro other hother heq
      rw [List.map_append, List.map_cons] at hnodup
      exact (List.nodup_append.1 hnodup).2.2 other.id (List.mem_map_of_mem hother) box.id
        List.mem_cons_self
        (by simpa using heq)
    simp [List.find?_append, hfront]
  rw [Layout.locate?_eq_block?, Layout.block?, hfind]
  rfl

theorem mem_ids_of_find? {id : BlockId} {b : PlacedBlock} (h : g.find? id = some b) :
    id ∈ g.ids := by
  by_cases hid : id ∈ g.ids
  · exact hid
  · have hnone : g.find? id = none := by
      rw [find?, List.findSome?_eq_none_iff]
      intro c hc
      apply Block.findList?_eq_none
      intro hmem
      obtain ⟨x, hx, hxid⟩ := List.mem_map.1 hmem
      exact hid (List.mem_map.2 ⟨x, List.mem_flatMap.2 ⟨c, hc, hx⟩, hxid⟩)
    cases hnone.symm.trans h

/-- Each id of the program is the id of a block at a place of it. -/
theorem exists_place_of_mem_ids {id : BlockId} (h : id ∈ g.ids) :
    ∃ p before b after, g.chains = Place.fill p (before ++ b :: after) ∧ b.id = id := by
  rw [← Layout.ids_ofGraph] at h
  obtain ⟨box, hbox, rfl⟩ := List.mem_map.1 h
  obtain ⟨p, before, b, after, hp, hid, -, -⟩ := (Layout.shows_ofGraph g).blocks box hbox
  exact ⟨p, before, b, after, hp, hid.symm⟩

end Graph

end BlockStudio
