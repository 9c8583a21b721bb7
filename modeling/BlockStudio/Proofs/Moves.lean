import BlockStudio.Proofs.EditorRuns
import BlockStudio.Proofs.Traversals

/-!
What a drag does to a program. Its beginning lifts a block and all that follow it in its container,
and its end drops the group at a snap target, on the canvas or nowhere. Main statements: where ids
tell blocks and chains apart, a block of the program can always be lifted, a snap target is always
there, and both the lift and the drop change what fills one place of the program and nothing else.
-/
namespace BlockStudio

namespace Place

/-- The chains that stay when the blocks at the place are cut down to some of them: a chain left
empty goes. -/
def keep : Place → List PlacedBlock → List Chain
  | .chain front _ _ back, [] => front ++ back
  | p, bs => p.fill bs

/-- The place with its chain moved up, if the place is a chain. -/
def raise (height : Float32) : Place → Place
  | .chain front id position back => .chain front id ⟨position.x, position.y - height⟩ back
  | p => p

theorem filled_fill {p : Place} {bs bs' : List PlacedBlock} (h : ∀ c ∈ p.fill bs, c.blocks ≠ [])
    (hbs : bs' ≠ []) :
    ∀ c ∈ p.fill bs', c.blocks ≠ [] := by
  induction p generalizing bs bs' with
  | chain front id position back =>
    simp only [fill, List.forall_mem_append, List.forall_mem_cons] at h ⊢
    exact ⟨h.1, hbs, h.2.2⟩
  | slot outer front owner s back ih => exact ih h (by simp)

/-- Cutting down what is at a place leaves at most the chain of the place empty. -/
theorem filter_fill {p : Place} {bs : List PlacedBlock} (h : ∀ c ∈ p.fill bs, c.blocks ≠ [])
    (bs' : List PlacedBlock) :
    (p.fill bs').filter (fun c => !c.blocks.isEmpty) = p.keep bs' := by
  cases p with
  | slot outer front owner s back =>
    exact Graph.filter_eq_self_of_filled (filled_fill (p := outer) h (by simp))
  | chain front id position back =>
    cases bs' with
    | cons b rest => exact Graph.filter_eq_self_of_filled (filled_fill h (by simp))
    | nil =>
      simp only [fill, List.forall_mem_append, List.forall_mem_cons] at h
      simp [fill, keep, Graph.filter_eq_self_of_filled h.1, Graph.filter_eq_self_of_filled h.2.2]

theorem preorder_keep (p : Place) (bs : List PlacedBlock) :
    Graph.preorderChains (p.keep bs) = Graph.preorderChains (p.fill bs) := by
  cases p with
  | slot outer front owner s back => simp [keep]
  | chain front id position back =>
    cases bs <;> simp [keep, fill, Graph.preorderChains, Block.preorderList]

theorem preorder_raise (p : Place) (height : Float32) (bs : List PlacedBlock) :
    Graph.preorderChains ((p.raise height).fill bs) = Graph.preorderChains (p.fill bs) := by
  cases p with
  | slot outer front owner s back => rfl
  | chain front id position back => simp [raise, fill, Graph.preorderChains]

theorem chainIds_keep (p : Place) (bs cs : List PlacedBlock) :
    ((p.keep bs).map (·.id)).Sublist ((p.fill cs).map (·.id)) := by
  cases p with
  | slot outer front owner s back =>
    rw [chainIds_fill _ cs bs]
    simp [keep]
  | chain front id position back =>
    cases bs <;> simp [keep, fill]

theorem chainIds_raise (p : Place) (height : Float32) (bs cs : List PlacedBlock) :
    ((p.raise height).fill bs).map (·.id) = (p.fill cs).map (·.id) := by
  cases p with
  | slot outer front owner s back => exact chainIds_fill _ bs cs
  | chain front id position back => simp [raise, fill]

end Place

/-- Lifting the block with an id takes it and all that follow it in its container, in order. -/
inductive Lifted (g : Graph) (id : BlockId) : List PlacedBlock → Graph → Prop
  | intro {p : Place} {before after : List PlacedBlock} {b : PlacedBlock} (hid : b.id = id)
      (hp : g.chains = p.fill (before ++ b :: after)) :
        Lifted g id (b :: after) { g with chains := p.keep before }

/-- What becomes of a program when a group of blocks is dropped, for each outcome. -/
inductive Dropped (g : Graph) (blocks : List PlacedBlock) : DropOutcome → Graph → Prop
  | nowhere : Dropped g blocks .discarded g
  /-- Between a block and those that follow it. -/
  | after {p : Place} {before after : List PlacedBlock} {b : PlacedBlock}
      (hp : g.chains = p.fill (before ++ b :: after)) :
      Dropped g blocks (.snapped (.appendAfter b.id))
        { g with chains := p.fill (before ++ b :: (blocks ++ after)) }
  /-- In front of the first block of a container; a chain moves up by the height of the group. -/
  | before {p : Place} {after : List PlacedBlock} {b : PlacedBlock}
    (hp : g.chains = p.fill (b :: after)) (hb : b.isHat = false) :
      Dropped g blocks (.snapped (.prependBefore b.id))
        { g with chains := (p.raise (Layout.listHeight blocks)).fill (blocks ++ b :: after) }
  /-- In front of all that is in a slot. -/
  | inside {p : Place} {content : List PlacedBlock} {owner : BlockId} {s : Slot}
    (hslot : p.container = .slot owner s) (hp : g.chains = p.fill content) :
      Dropped g blocks (.snapped (.nest owner s)) { g with chains := p.fill (blocks ++ content) }
  /-- As a chain of its own after all others. -/
  | apart (position : Point) :
      Dropped g blocks (.newChain (Number.countUp g.lastChainId 1))
        { g with
          chains := g.chains ++ [⟨Number.countUp g.lastChainId 1, position, blocks⟩]
          lastChainId := Number.countUp g.lastChainId 1 }

section
variable {g g' : Graph} {blocks : List PlacedBlock}

/-- A lifted group was contiguous, and the other blocks keep their order. -/
theorem Lifted.preorder {id : BlockId} (h : Lifted g id blocks g') : ∃ front back,
    g.preorder = front ++ Block.preorderList blocks ++ back ∧ g'.preorder = front ++ back := by
  obtain @⟨p, before, after, b, -, hp⟩ := h
  refine ⟨p.lead ++ Block.preorderList before, p.trail, ?_, ?_⟩
  · rw [Graph.preorder, hp, p.preorder_fill, Block.preorderList_append]
    simp
  · rw [Graph.preorder, p.preorder_keep, p.preorder_fill]

theorem preorder_of_fill {p : Place} {before after : List PlacedBlock}
    (hp : g.chains = p.fill (before ++ after)) :
    g.preorder = p.lead ++ Block.preorderList before ++ (Block.preorderList after ++ p.trail) := by
  rw [Graph.preorder, hp, p.preorder_fill, Block.preorderList_append]
  simp

theorem Dropped.preorder {outcome : DropOutcome} (h : Dropped g blocks outcome g')
    (houtcome : outcome ≠ .discarded) :
    ∃ front back, g.preorder = front ++ back ∧
      g'.preorder = front ++ Block.preorderList blocks ++ back := by
  cases h with
  | nowhere => exact absurd rfl houtcome
  | @after p before after b hp =>
    have hp' : g.chains = p.fill (before ++ [b] ++ after) := by simpa using hp
    refine ⟨_, _, preorder_of_fill hp', ?_⟩
    simp [Graph.preorder, p.preorder_fill, Block.preorderList_append, Block.preorderList]
  | @before p after b hp hb =>
    have hp' : g.chains = p.fill ([] ++ b :: after) := hp
    refine ⟨_, _, preorder_of_fill hp', ?_⟩
    simp [Graph.preorder, p.preorder_raise, p.preorder_fill, Block.preorderList_append,
      Block.preorderList]
  | @inside p content owner s hslot hp =>
    have hp' : g.chains = p.fill ([] ++ content) := hp
    refine ⟨_, _, preorder_of_fill hp', ?_⟩
    simp [Graph.preorder, p.preorder_fill, Block.preorderList_append, Block.preorderList]
  | apart position =>
    refine ⟨g.preorder, [], by simp, ?_⟩
    simp [Graph.preorder, Graph.preorderChains]

theorem Lifted.chainIds {id : BlockId} (h : Lifted g id blocks g') :
    g'.chainIds.Sublist g.chainIds := by
  obtain @⟨p, before, after, b, -, hp⟩ := h
  rw [Graph.chainIds, Graph.chainIds, hp]
  exact p.chainIds_keep before _

/-- A drop adds no chain but the one that it makes. -/
theorem Dropped.chainIds {outcome : DropOutcome} (h : Dropped g blocks outcome g') :
    g'.chainIds = g.chainIds ∧ g'.lastChainId = g.lastChainId ∨
      g'.chainIds = g.chainIds ++ [g'.lastChainId] ∧
      g'.lastChainId = Number.countUp g.lastChainId 1 := by
  cases h with
  | nowhere => exact .inl ⟨rfl, rfl⟩
  | @after p before after b hp =>
    refine .inl ⟨?_, rfl⟩
    rw [Graph.chainIds, Graph.chainIds, hp]
    exact p.chainIds_fill _ _
  | @before p after b hp hb =>
    refine .inl ⟨?_, rfl⟩
    rw [Graph.chainIds, Graph.chainIds, hp]
    exact p.chainIds_raise _ _ _
  | @inside p content owner s hslot hp =>
    refine .inl ⟨?_, rfl⟩
    rw [Graph.chainIds, Graph.chainIds, hp]
    exact p.chainIds_fill _ _
  | apart position => exact .inr ⟨by simp [Graph.chainIds], rfl⟩

theorem Lifted.ne_nil {id : BlockId} (h : Lifted g id blocks g') : blocks ≠ [] := by
  cases h
  simp

theorem Dropped.graph_eq (h : Dropped g blocks .discarded g') : g' = g := by
  cases h
  rfl

theorem Lifted.lastBlockId {id : BlockId} (h : Lifted g id blocks g') :
    g'.lastBlockId = g.lastBlockId := by
  cases h
  rfl

theorem Dropped.lastBlockId {outcome : DropOutcome} (h : Dropped g blocks outcome g') :
    g'.lastBlockId = g.lastBlockId := by
  cases h <;> rfl

theorem Lifted.lastChainId {id : BlockId} (h : Lifted g id blocks g') :
    g'.lastChainId = g.lastChainId := by
  cases h
  rfl

end

namespace Graph
variable {g : Graph}

theorem Distinct.detach?_fill (hg : g.Distinct)
    (hfilled : ∀ c ∈ g.chains, c.blocks ≠ []) {p : Place} {before after : List PlacedBlock}
    {b : PlacedBlock} (hp : g.chains = p.fill (before ++ b :: after)) :
    g.detach? b.id = some (b :: after, { g with chains := p.keep before }) := by
  have hprune : (p.fill before).filter (fun c => !c.blocks.isEmpty) = p.keep before :=
    Place.filter_fill (hp ▸ hfilled) before
  simp only [detach?, hg.locate?_fill hp, Option.bind_eq_bind, Option.bind_some,
    hg.container?_fill hp, hg.editContainer?_fill hp, prune]
  simp [hprune]

theorem Distinct.detach?_eq (hg : g.Distinct)
    (hfilled : ∀ c ∈ g.chains, c.blocks ≠ []) {id : BlockId} (hid : id ∈ g.ids) :
    ∃ blocks g', g.detach? id = some (blocks, g') ∧ Lifted g id blocks g' := by
  obtain ⟨p, before, b, after, hp, rfl⟩ := exists_place_of_mem_ids hid
  exact ⟨_, _, hg.detach?_fill hfilled hp, .intro rfl hp⟩

theorem detach?_eq_none {id : BlockId} (hid : id ∉ g.ids) : g.detach? id = none := by
  have hlocate : g.locate? id = none := by
    rw [Layout.locate?_eq_block?, Option.map_eq_none_iff, Layout.block?, List.find?_eq_none]
    intro box hbox heq
    rw [← Layout.ids_ofGraph] at hid
    exact hid (List.mem_map.2 ⟨box, hbox, by simpa using heq⟩)
  simp [detach?, hlocate]

variable {p : Place} {before after blocks content : List PlacedBlock} {b : PlacedBlock}

theorem spliceAt_after : spliceAt (before.length + 1) blocks (before ++ b :: after) =
    before ++ b :: (blocks ++ after) := by
  have htake : before.take (before.length + 1) = before := List.take_of_length_le (by omega)
  simp [spliceAt, List.take_append, htake]

theorem Distinct.insert_fill (hg : g.Distinct) (hp : g.chains = p.fill content) (index : Nat) :
    g.insert p.container index blocks =
      .ok { g with chains := p.fill (spliceAt index blocks content) } := by
  rw [insert, hg.editContainer?_fill hp]

end Graph

namespace Snap

theorem mem_of_resolve? {l : Layout} {payload : Payload} {threshold : Float32} {c : SnapCandidate}
    (h : resolve? l payload threshold = some c) :
    payload.headIsHat = false ∧ c ∈ candidates l payload := by
  have hfold : ∀ (cs : List SnapCandidate) (best : Option SnapCandidate),
      cs.foldl (consider threshold) best = some c → c ∈ cs ∨ best = some c := by
    intro cs
    induction cs with
    | nil => exact fun best hbest => .inr hbest
    | cons d rest ih =>
      intro best hbest
      have hconsider : consider threshold best d = best ∨ consider threshold best d = some d := by
        unfold consider
        grind
      rcases ih _ hbest with hrest | hhead
      · exact .inl (List.mem_cons_of_mem _ hrest)
      · rcases hconsider with heq | heq
        · exact .inr (heq ▸ hhead)
        · rw [heq, Option.some.injEq] at hhead
          exact .inl (hhead ▸ List.mem_cons_self)
  unfold resolve? at h
  split at h
  · cases h
  · rename_i hlegal
    simp only [Bool.or_eq_true, not_or, Bool.not_eq_true] at hlegal
    exact ⟨hlegal.1, (hfold _ none h).resolve_right (by simp)⟩

/-- What a place is offered for: a block to follow, a first block that is no hat, or a slot. -/
theorem target_of_mem_candidates {l : Layout} {payload : Payload} {c : SnapCandidate}
    (h : c ∈ candidates l payload) :
    (∃ box ∈ l.blocks, c.target = .appendAfter box.id) ∨
      (∃ box ∈ l.blocks, c.target = .prependBefore box.id ∧ box.location.index = 0 ∧
        box.isHat = false) ∨
      ∃ box ∈ l.slots, c.target = .nest box.owner box.slot := by
  obtain ⟨box, hbox, hoffer⟩ := List.mem_flatMap.1 h
  rcases List.mem_cons.1 hoffer with rfl | hoffer
  · exact .inl ⟨box, hbox, rfl⟩
  · rcases List.mem_append.1 hoffer with hbefore | hinside
    · split at hbefore
      · rename_i hfirst
        obtain rfl := List.mem_singleton.1 hbefore
        simp only [BlockBox.isFirst, Bool.and_eq_true, beq_iff_eq, Bool.not_eq_true'] at hfirst
        exact .inr (.inl ⟨box, hbox, rfl, hfirst⟩)
      · cases hbefore
    · obtain ⟨s, hs, rfl⟩ := List.mem_map.1 hinside
      exact .inr (.inr ⟨s, (List.mem_filter.1 hs).1, rfl⟩)

end Snap

namespace Editor
variable {g : Graph}

/-- A place that the layout of a program offers is there, and a group attached to it is dropped
there. -/
theorem exists_splice? (hg : g.Distinct) {payload : Payload} {c : SnapCandidate}
    (hc : c ∈ Snap.candidates (.ofGraph g) payload) (blocks : List PlacedBlock) :
    ∃ g', splice? g c.target blocks (Layout.listHeight blocks) = some g' ∧
      Dropped g blocks (.snapped c.target) g' := by
  rcases Snap.target_of_mem_candidates hc with
      ⟨box, hbox, htarget⟩ | ⟨box, hbox, htarget, hfirst, hhat⟩ | ⟨box, hbox, htarget⟩
  · obtain ⟨p, before, b, after, hp, hid, -⟩ := (Layout.shows_ofGraph g).blocks box hbox
    rw [htarget, hid]
    refine ⟨_, ?_, .after hp⟩
    simp [splice?, hg.locate?_fill hp, hg.insert_fill hp, Except.toOption, Graph.spliceAt_after]
  · obtain ⟨p, before, b, after, hp, hid, hlocation, hhat'⟩ :=
      (Layout.shows_ofGraph g).blocks box hbox
    rw [hlocation] at hfirst
    obtain rfl : before = [] := List.length_eq_zero_iff.1 hfirst
    rw [htarget, hid]
    refine ⟨_, ?_, .before hp (hhat' ▸ hhat)⟩
    have hsplit : g.chains = p.fill ([] ++ b :: after) := hp
    have hlocate : g.locate? b.id = some ⟨p.container, 0⟩ := hg.locate?_fill hsplit
    simp only [splice?, hlocate, Option.bind_eq_bind, Option.bind_some,
      hg.insert_fill hp, Except.toOption]
    cases p with
    | slot outer front owner s back => rfl
    | chain front id position back =>
      simp [Place.container, Graph.editChain, Place.fill, Place.raise, raise, Graph.spliceAt,
        Graph.editChains_middle (c := ⟨id, position, _⟩) rfl (hg.id_before hp)]
  · obtain ⟨p, content, hp, hcontainer⟩ := (Layout.shows_ofGraph g).slots box hbox
    rw [htarget]
    refine ⟨_, ?_, .inside hcontainer hp⟩
    simp [splice?, ← hcontainer, hg.insert_fill hp, Except.toOption, Graph.spliceAt]

variable {e : Editor}

theorem exists_beginDrag (hg : e.graph.Distinct) (hfilled : ∀ c ∈ e.graph.chains, c.blocks ≠ [])
    (hdrag : e.drag = none) {id : BlockId} (hid : id ∈ e.graph.ids) (pointer : Point) :
    ∃ d graph, e.beginDrag (.placed id) pointer = .ok { e with graph, drag := some d } ∧
      Lifted e.graph id d.blocks graph := by
  obtain ⟨blocks, graph, hdetach, hlifted⟩ := hg.detach?_eq hfilled hid
  have hbox : ∃ box, e.layout.block? id = some box := by
    rw [← Option.isSome_iff_exists, Layout.block?, List.find?_isSome]
    rw [← Layout.ids_ofGraph] at hid
    obtain ⟨box, hbox, heq⟩ := List.mem_map.1 hid
    exact ⟨box, hbox, by simpa using heq⟩
  obtain ⟨box, hbox⟩ := hbox
  let d : Drag := ⟨blocks, e.viewport.toCanvas pointer - box.rect.min, pointer, none⟩
  refine ⟨({ e with graph, drag := some d } : Editor).moveDrag pointer d, graph, ?_, hlifted⟩
  simp [beginDrag, isDragging, hdrag, pickUp, hbox, hdetach, updateDrag, d]

/-- How a drag ends at a point: the point and the snap target there tell the outcome, a group with a
hat at its head never snaps, and the program is what the outcome says. -/
structure EndsAs (e : Editor) (d : Drag) (pointer : Point) (outcome : DropOutcome)
    (graph : Graph) : Prop where
  discarded : outcome = .discarded ↔
    e.config.trash.contains pointer = true ∨ e.config.canvas.contains pointer = false
  snapped : ∀ t, outcome = .snapped t ↔
    outcome ≠ .discarded ∧ (e.updateDrag pointer).snapTarget? = some t
  headless : ∀ t, outcome = .snapped t → d.blocks.head?.any (·.isHat) = false
  program : Dropped e.graph d.blocks outcome graph

theorem discards_iff (e : Editor) (pointer : Point) : e.discards pointer = true ↔
    e.config.trash.contains pointer = true ∨ e.config.canvas.contains pointer = false := by
  simp [discards]

/-- A drag ends with an outcome, and nothing but the program is changed. The target is one of the
layout of the program as it is now, so the splice does not fail, and a chain of its own always gets
an id. -/
theorem exists_endsAs (hg : e.graph.Distinct) {d : Drag} (hdrag : e.drag = some d)
    (hblocks : d.blocks ≠ []) (pointer : Point) :
    ∃ outcome graph, e.endDrag pointer = (some outcome, { e with graph, drag := none }) ∧
      e.EndsAs d pointer outcome graph := by
  have hupdate : (e.updateDrag pointer).drag = some (e.moveDrag pointer d) := by
    simp [updateDrag, hdrag]
  have htarget : (e.updateDrag pointer).snapTarget? =
      (e.moveDrag pointer d).snap.map (·.target) := by
    simp [snapTarget?, hupdate]
  by_cases hdiscards : e.discards pointer = true
  · refine ⟨.discarded, e.graph, ?_, ?_⟩
    · rw [endDrag_eq hdrag, if_pos hdiscards]
    · exact ⟨by simpa using (discards_iff e pointer).1 hdiscards, by simp, by simp, .nowhere⟩
  · have hkept : ¬(e.config.trash.contains pointer = true ∨
        e.config.canvas.contains pointer = false) :=
      mt (discards_iff e pointer).2 hdiscards
    cases hsnap : (e.moveDrag pointer d).snap with
    | some c =>
      obtain ⟨hhead, hc⟩ := Snap.mem_of_resolve? hsnap
      obtain ⟨graph, hsplice, hdropped⟩ := exists_splice? hg hc d.blocks
      have hplace : e.place (e.moveDrag pointer d) pointer = (some (.snapped c.target), graph) := by
        have hmoved : (e.moveDrag pointer d).blocks = d.blocks := rfl
        simp [place, hsnap, hmoved, hsplice]
      refine ⟨.snapped c.target, graph, ?_, by simpa using hkept, ?_, fun _ _ => hhead, hdropped⟩
      · rw [endDrag_eq hdrag, if_neg hdiscards, hplace]
      · simp [htarget, hsnap]
    | none =>
      have hplace : e.place (e.moveDrag pointer d) pointer =
          (e.graph.addChain (e.payloadCorner d pointer) d.blocks).map (·.map .newChain) id := by
        simp only [place, hsnap]
        rfl
      refine ⟨.newChain (Number.countUp e.graph.lastChainId 1), _, ?_,
        by simpa using hkept, ?_, by simp, .apart (e.payloadCorner d pointer)⟩
      · rw [endDrag_eq hdrag, if_neg hdiscards, hplace, Graph.addChain,
          if_neg (by simpa using hblocks)]
        rfl
      · simp [htarget, hsnap]

end Editor

end BlockStudio
