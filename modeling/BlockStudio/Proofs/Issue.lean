import BlockStudio.Proofs.Moves
import BlockStudio.Proofs.RoundTrip

/-!
Handing out ids. As long as a counter has not run out, the ids that it hands out are the next
numbers, each once. Main statements: a document that is loaded gives its blocks the next block ids
and its chains the next chain ids, and no operation of the editor turns a counter back or hands out
more ids than it asks for.
-/
namespace BlockStudio

/-- From `last` to `next` a counter hands out `ids`: the numbers between, each once, in some
order. -/
structure Issued (last : Nat) (ids : List Nat) (next : Nat) : Prop where
  perm : ids.Perm (List.range' (last + 1) ids.length)
  next_eq : next = last + ids.length

namespace Issued
variable {a b c : Nat} {xs ys : List Nat}

theorem nil (a : Nat) : Issued a [] a := ⟨.refl _, rfl⟩

theorem single (h : Number.countUp a 1 < Number.counterMax) :
    Issued a [Number.countUp a 1] (Number.countUp a 1) := by
  rw [Number.countUp_of_lt h]
  exact ⟨.refl _, rfl⟩

theorem append (h : Issued a xs b) (h' : Issued b ys c) : Issued a (xs ++ ys) c := by
  refine ⟨?_, ?_⟩
  · have hsplit : List.range' (a + 1) (xs ++ ys).length =
        List.range' (a + 1) xs.length ++ List.range' (b + 1) ys.length := by
      rw [h.next_eq, List.length_append, ← List.range'_append_1]
      congr 2
      omega
    rw [hsplit]
    exact h.perm.append h'.perm
  · rw [h'.next_eq, h.next_eq, List.length_append, Nat.add_assoc]

theorem of_perm (h : Issued a xs b) (hperm : xs.Perm ys) : Issued a ys b := by
  refine ⟨hperm.length_eq ▸ hperm.symm.trans h.perm, hperm.length_eq ▸ h.next_eq⟩

theorem le (h : Issued a xs b) : a ≤ b := by
  have hnext := h.next_eq
  omega

theorem nodup (h : Issued a xs b) : xs.Nodup := h.perm.nodup_iff.2 List.nodup_range'

theorem mem_iff (h : Issued a xs b) {id : Nat} : id ∈ xs ↔ a < id ∧ id ≤ b := by
  rw [h.perm.mem_iff, List.mem_range'_1, h.next_eq]
  omega

end Issued

/-- Each of the numbers is between one and `last`, and none is there twice. -/
structure DistinctUpTo (last : Nat) (ids : List Nat) : Prop where
  distinct : ids.Nodup
  bounded : ∀ id ∈ ids, 0 < id ∧ id ≤ last

namespace DistinctUpTo
variable {last next : Nat} {ids ids' new : List Nat}

theorem nil (last : Nat) : DistinctUpTo last [] := ⟨.nil, by simp⟩

theorem sublist (h : DistinctUpTo last ids) (hsub : ids'.Sublist ids) : DistinctUpTo last ids' :=
  ⟨h.distinct.sublist hsub, fun id hid => h.bounded id (hsub.subset hid)⟩

theorem of_perm (h : DistinctUpTo last ids) (hperm : ids.Perm ids') : DistinctUpTo last ids' :=
  ⟨hperm.nodup_iff.1 h.distinct, fun id hid => h.bounded id (hperm.symm.subset hid)⟩

/-- What a counter hands out next differs from all that it has handed out. -/
theorem append (h : DistinctUpTo last ids) (hnew : Issued last new next) :
    DistinctUpTo next (ids ++ new) := by
  refine ⟨List.nodup_append.2 ⟨h.distinct, hnew.nodup, ?_⟩, ?_⟩
  · rintro id hid _ hid' rfl
    have hle := (h.bounded id hid).2
    have hlt := (hnew.mem_iff.1 hid').1
    omega
  · intro id hid
    have hle := hnew.le
    rcases List.mem_append.1 hid with hold | hnewly
    · have hbounds := h.bounded id hold
      omega
    · have hbounds := hnew.mem_iff.1 hnewly
      omega

end DistinctUpTo

namespace Graph

structure Unsaturated (g : Graph) : Prop where
  block : g.lastBlockId < Number.counterMax
  chain : g.lastChainId < Number.counterMax

mutual

/-- A rebuilt block has the next ids. Its own comes last, so a counter that has not run out at the
end had not run out in the slots either. -/
theorem issued_rebuildBlock :
    ∀ (b : Node) {last : BlockId}, (rebuildBlock last b).2 < Number.counterMax →
      Issued last (Block.ids (rebuildBlock last b).1.toList) (rebuildBlock last b).2
  | ⟨_, type, values, children, elseChildren⟩, last, h => by
    rw [rebuildBlock] at h ⊢
    cases hd : definition? type with
    | none => exact .nil last
    | some d =>
      simp only [hd] at h ⊢
      have hlast := Number.lt_of_countUp_lt h
      have hsecond := issued_rebuildSlot (2 ≤ d.shape.slotCount) elseChildren hlast
      have hfirst :=
        issued_rebuildSlot (1 ≤ d.shape.slotCount) children (Nat.lt_of_le_of_lt hsecond.le hlast)
      refine ((hfirst.append hsecond).append (.single h)).of_perm ?_
      simp [Block.ids, Block.preorderList, Block.preorder, Block.bare, -List.append_assoc,
        List.perm_append_singleton]

theorem issued_rebuildSlot (wanted : Bool) :
    ∀ (s : Option (List Node)) {last : BlockId}, (rebuildSlot wanted last s).2 < Number.counterMax →
      Issued last ((Block.preorderSlot (rebuildSlot wanted last s).1).map (·.id))
        (rebuildSlot wanted last s).2
  | none, last, _ => by cases wanted <;> exact .nil last
  | some bs, last, h => by
    cases wanted with
    | false => exact .nil last
    | true => exact issued_rebuildList bs h

theorem issued_rebuildList :
    ∀ (bs : List Node) {last : BlockId}, (rebuildList last bs).2 < Number.counterMax →
      Issued last (Block.ids (rebuildList last bs).1) (rebuildList last bs).2
  | [], last, _ => .nil last
  | b :: rest, last, h => by
    have hrest := issued_rebuildList rest h
    have hb := issued_rebuildBlock b (Nat.lt_of_le_of_lt hrest.le h)
    simp only [rebuildList, Block.ids_append]
    exact hb.append hrest

end

/-- The graph has grown by blocks and chains, whose ids the counters have handed out. -/
structure Grown (g : Graph) (blocks : List BlockId) (chains : List ChainId)
    (g' : Graph) : Prop where
  ids_eq : g'.ids = g.ids ++ blocks
  chainIds_eq : g'.chainIds = g.chainIds ++ chains
  blocks : Issued g.lastBlockId blocks g'.lastBlockId
  chains : Issued g.lastChainId chains g'.lastChainId

variable {g g' : Graph}

theorem Grown.refl (g : Graph) : g.Grown [] [] g := ⟨by simp, by simp, .nil _, .nil _⟩

theorem Grown.trans {g'' : Graph} {blocks blocks' : List BlockId} {chains chains' : List ChainId}
    (h : g.Grown blocks chains g') (h' : g'.Grown blocks' chains' g'') :
    g.Grown (blocks ++ blocks') (chains ++ chains') g'' :=
  ⟨by rw [h'.ids_eq, h.ids_eq, List.append_assoc],
    by rw [h'.chainIds_eq, h.chainIds_eq, List.append_assoc], h.blocks.append h'.blocks,
    h.chains.append h'.chains⟩

theorem Grown.unsaturated {blocks : List BlockId} {chains : List ChainId}
    (h : g.Grown blocks chains g') (hg' : g'.Unsaturated) : g.Unsaturated :=
  ⟨Nat.lt_of_le_of_lt h.blocks.le hg'.block, Nat.lt_of_le_of_lt h.chains.le hg'.chain⟩

theorem exists_grown_addDocumentChain {c : DocumentChain} (h : (g.addDocumentChain c).Unsaturated) :
    ∃ blocks chains, g.Grown blocks chains (g.addDocumentChain c) := by
  have hblock : (g.addDocumentChain c).lastBlockId = (rebuildList g.lastBlockId c.blocks).2 := by
    simp only [addDocumentChain, addChain]
    split <;> rfl
  have hissued := issued_rebuildList c.blocks (hblock ▸ h.block)
  simp only [addDocumentChain, addChain] at h ⊢
  split at h
  · rename_i hempty
    rw [if_pos hempty]
    rw [List.isEmpty_iff.1 hempty] at hissued
    exact ⟨[], [], by simp [ids, preorder], by simp [chainIds], hissued, .nil _⟩
  · rename_i hne
    rw [if_neg hne]
    refine ⟨_, _, ?_, ?_, hissued, .single h.chain⟩
    · simp [ids, preorder, preorderChains, Block.ids]
    · simp [chainIds]

theorem exists_grown_addDocumentChains {cs : List DocumentChain}
    (h : (cs.foldl addDocumentChain g).Unsaturated) :
    ∃ blocks chains, g.Grown blocks chains (cs.foldl addDocumentChain g) := by
  induction cs generalizing g with
  | nil => exact ⟨[], [], .refl g⟩
  | cons c rest ih =>
    obtain ⟨blocks', chains', hrest⟩ := ih h
    obtain ⟨blocks, chains, hc⟩ := exists_grown_addDocumentChain (hrest.unsaturated h)
    exact ⟨_, _, hc.trans hrest⟩

/-- The variables of a document change the names of the variables at most. -/
theorem addDocumentVariables_eq (g : Graph) (names : List String) :
    ∃ names', names.foldl addDocumentVariable g = { g with variableNames := names' } := by
  refine List.foldlRecOn
    (motive := fun g' : Graph => ∃ names', g' = { g with variableNames := names' }) _ _ ⟨_, rfl⟩ ?_
  rintro _ ⟨names', rfl⟩ name -
  obtain ⟨names'', hnames⟩ := addDocumentVariable_eq { g with variableNames := names' } name
  exact ⟨names'', hnames⟩

/-- All blocks and chains of a loaded document get the ids that come next. -/
theorem grown_load {d : Document} (h : (g.load d).Unsaturated) :
    g.clear.Grown (g.load d).ids (g.load d).chainIds (g.load d) := by
  obtain ⟨names, hnames⟩ := addDocumentVariables_eq g.clear d.variableNames
  obtain ⟨blocks, chains, hgrown⟩ := exists_grown_addDocumentChains h
  rw [hnames] at hgrown
  have hload : g.load d =
      d.chains.foldl addDocumentChain { g.clear with variableNames := names } := by
    rw [load, hnames]
  rw [← hload] at hgrown
  have hids : (g.load d).ids = blocks := hgrown.ids_eq
  have hchains : (g.load d).chainIds = chains := hgrown.chainIds_eq
  rw [hids, hchains]
  exact ⟨hids, hchains, hgrown.blocks, hgrown.chains⟩

mutual

theorem rebuildBlock_le (last : BlockId) : ∀ b : Node, (rebuildBlock last b).2 ≤ last + b.count
  | ⟨_, type, values, children, elseChildren⟩ => by
    rw [rebuildBlock]
    cases hd : definition? type with
    | none => exact Nat.le_add_right _ _
    | some d =>
      have hfirst := rebuildSlot_le (1 ≤ d.shape.slotCount) last children
      have hsecond := rebuildSlot_le (2 ≤ d.shape.slotCount)
        (rebuildSlot (1 ≤ d.shape.slotCount) last children).2 elseChildren
      refine Nat.le_trans (Number.countUp_le_add _ _) ?_
      rw [Block.count]
      exact Nat.le_trans (Nat.succ_le_succ (Nat.le_trans hsecond (Nat.add_le_add_right hfirst _)))
        (Nat.le_of_eq (by simp +arith))

theorem rebuildSlot_le (wanted : Bool) (last : BlockId) :
    ∀ s : Option (List Node), (rebuildSlot wanted last s).2 ≤ last + Block.countSlot s
  | none => Nat.le_add_right _ _
  | some bs => by
    cases wanted with
    | false => exact Nat.le_add_right _ _
    | true => exact rebuildList_le last bs

theorem rebuildList_le (last : BlockId) :
    ∀ bs : List Node, (rebuildList last bs).2 ≤ last + Block.countList bs
  | [] => Nat.le_refl _
  | b :: rest => by
    have hb := rebuildBlock_le last b
    have hrest := rebuildList_le (rebuildBlock last b).2 rest
    rw [Block.countList, ← Nat.add_assoc]
    exact Nat.le_trans hrest (Nat.add_le_add_right hb _)

end

/-- A new block has nothing in its slots, and the next id. -/
theorem newBlock_eq_ok {type : String} {objects names : List String} {b : PlacedBlock}
    (h : g.newBlock type objects names = .ok (b, g')) :
    b.preorder = [b] ∧ b.id = Number.countUp g.lastBlockId 1 ∧
    g' = { g with lastBlockId := b.id } := by
  unfold newBlock at h
  split at h
  · cases h
  · rename_i d hd
    cases h
    refine ⟨?_, rfl, rfl⟩
    have hempty : ∀ n, (emptySlot d.shape.slotCount n).map (fun _ => []) =
        emptySlot d.shape.slotCount n ∧
        Block.preorderSlot (emptySlot d.shape.slotCount n) = [] := by
      intro n
      unfold emptySlot
      split <;> exact ⟨rfl, rfl⟩
    simp [Block.preorder, Block.bare, (hempty 1).1, (hempty 1).2, (hempty 2).1, (hempty 2).2]

/-- From `g` to `g'` the counters hand out at most `m` block ids and `n` chain ids, and are not
turned back. -/
structure Counts (g : Graph) (m n : Nat) (g' : Graph) : Prop where
  block : g'.lastBlockId ≤ g.lastBlockId + m
  chain : g'.lastChainId ≤ g.lastChainId + n
  unsaturated : g'.Unsaturated → g.Unsaturated

namespace Counts
variable {m n m' n' : Nat}

theorem same (hblock : g'.lastBlockId = g.lastBlockId) (hchain : g'.lastChainId = g.lastChainId) :
    g.Counts 0 0 g' :=
  ⟨Nat.le_of_eq hblock, Nat.le_of_eq hchain, fun h => ⟨hblock ▸ h.block, hchain ▸ h.chain⟩⟩

theorem trans {g'' : Graph} (h : g.Counts m n g') (h' : g'.Counts m' n' g'') :
    g.Counts (m + m') (n + n') g'' := by
  refine ⟨?_, ?_, fun hg'' => h.unsaturated (h'.unsaturated hg'')⟩
  · rw [← Nat.add_assoc]
    exact Nat.le_trans h'.block (Nat.add_le_add_right h.block _)
  · rw [← Nat.add_assoc]
    exact Nat.le_trans h'.chain (Nat.add_le_add_right h.chain _)

theorem of_le (h : g.Counts m n g') (hm : m ≤ m') (hn : n ≤ n') : g.Counts m' n' g' :=
  ⟨Nat.le_trans h.block (Nat.add_le_add_left hm _),
    Nat.le_trans h.chain (Nat.add_le_add_left hn _), h.unsaturated⟩

theorem editContainer? {c : Container} {f : List PlacedBlock → List PlacedBlock}
    (h : g.editContainer? c f = some g') : g.Counts 0 0 g' := by
  obtain ⟨id, rfl, rfl⟩ | ⟨owner, slot, rfl, rfl⟩ :=
    editContainer?_eq_some h <;> exact .same rfl rfl

theorem insert {c : Container} {index : Nat} {blocks : List PlacedBlock}
    (h : g.insert c index blocks = .ok g') :
    g.Counts 0 0 g' := .editContainer? (insert_eq_ok h)

theorem detach? {id : BlockId} {blocks : List PlacedBlock} (h : g.detach? id = some (blocks, g')) :
    g.Counts 0 0 g' := by
  simp only [Graph.detach?, Option.bind_eq_bind, Option.bind_eq_some_iff, Option.some.injEq,
    Prod.mk.injEq] at h
  obtain ⟨l, -, bs, -, rest, hrest, -, rfl⟩ := h
  have hprune : rest.Counts 0 0 rest.prune := .same rfl rfl
  exact (editContainer? hrest).trans hprune

theorem newBlock {type : String} {objects names : List String} {b : PlacedBlock}
    (h : g.newBlock type objects names = .ok (b, g')) : g.Counts 1 0 g' := by
  obtain ⟨-, hid, rfl⟩ := newBlock_eq_ok h
  refine ⟨hid ▸ Number.countUp_le_add _ _, Nat.le_refl _, fun hg' => ⟨?_, hg'.chain⟩⟩
  have hblock : b.id < Number.counterMax := hg'.block
  exact Number.lt_of_countUp_lt (hid ▸ hblock)

theorem addChain (g : Graph) (position : Point) (blocks : List PlacedBlock) :
    g.Counts 0 1 (g.addChain position blocks).2 := by
  unfold Graph.addChain
  split
  · exact (same rfl rfl).of_le (Nat.le_refl _) (Nat.zero_le _)
  · exact ⟨Nat.le_refl _, Number.countUp_le_add _ _,
      fun hg' => ⟨hg'.block, Number.lt_of_countUp_lt hg'.chain⟩⟩

theorem declare {name : String} (h : g.declare name = .ok g') : g.Counts 0 0 g' := by
  obtain ⟨-, -, rfl⟩ := declare_eq_ok h
  exact .same rfl rfl

theorem addDocumentChain (g : Graph) (c : DocumentChain) :
    g.Counts (Block.countList c.blocks) 1 (g.addDocumentChain c) := by
  have hadd := addChain { g with lastBlockId := (rebuildList g.lastBlockId c.blocks).2 } ⟨c.x, c.y⟩
    (rebuildList g.lastBlockId c.blocks).1
  refine ⟨Nat.le_trans hadd.block (rebuildList_le _ _), hadd.chain, fun hg' => ?_⟩
  obtain ⟨blocks, chains, hgrown⟩ := exists_grown_addDocumentChain hg'
  exact hgrown.unsaturated hg'

theorem addDocumentChains (g : Graph) (cs : List DocumentChain) :
    g.Counts (Block.countList (cs.flatMap (·.blocks))) cs.length
      (cs.foldl Graph.addDocumentChain g) := by
  induction cs generalizing g with
  | nil => exact .same rfl rfl
  | cons c rest ih =>
    have hboth := (addDocumentChain g c).trans (ih (g.addDocumentChain c))
    rw [List.flatMap_cons, Block.countList_append, List.length_cons, Nat.add_comm rest.length]
    exact hboth

theorem load (g : Graph) (d : Document) : g.Counts d.blockCount d.chains.length (g.load d) := by
  obtain ⟨names, hnames⟩ := addDocumentVariables_eq g.clear d.variableNames
  have hchains := addDocumentChains { g.clear with variableNames := names } d.chains
  rw [Graph.load, hnames]
  exact ⟨hchains.block, hchains.chain,
    fun hg' => ⟨(hchains.unsaturated hg').block, (hchains.unsaturated hg').chain⟩⟩

end Counts

end Graph

/-- The number of block ids that an operation asks for. -/
def Operation.blocksAsked : Operation → Nat
  | .beginDrag (.palette _) _ => 1
  | .load d => d.blockCount
  | _ => 0

def Operation.chainsAsked : Operation → Nat
  | .endDrag _ => 1
  | .load d => d.chains.length
  | _ => 0

def Operation.total (asked : Operation → Nat) : List Operation → Nat
  | [] => 0
  | op :: rest => asked op + total asked rest

namespace Editor
variable {e : Editor}

theorem counts_of_splice? {g g' : Graph} {target : SnapTarget} {blocks : List PlacedBlock}
    {height : Float32} (h : splice? g target blocks height = some g') : g.Counts 0 0 g' := by
  obtain ⟨c, index, graph, hinsert, rfl | ⟨id, rfl⟩⟩ := splice?_eq_some h
  · exact .insert hinsert
  · have hraise : graph.Counts 0 0 (graph.editChain id (raise height)) := .same rfl rfl
    exact (Graph.Counts.insert hinsert).trans hraise

theorem counts_place (e : Editor) (d : Drag) (pointer : Point) :
    e.graph.Counts 0 1 (e.place d pointer).2 := by
  obtain ⟨target, hsplice⟩ | hchain := place_snd e d pointer
  · exact (counts_of_splice? hsplice).of_le (Nat.le_refl _) (Nat.zero_le _)
  · exact hchain ▸ .addChain _ _ _

theorem counts_of_beginDrag {e' : Editor} {source : DragSource} {pointer : Point}
    (h : e.beginDrag source pointer = .ok e') :
    e.graph.Counts (Operation.beginDrag source pointer).blocksAsked 0 e'.graph := by
  obtain ⟨-, blocks, grabOffset, graph, hpick, rfl⟩ := beginDrag_eq_ok h
  obtain ⟨type, b, rfl, -, hnew⟩ | ⟨id, rfl, hdetach⟩ := pickUp_eq_ok hpick
  · exact .newBlock hnew
  · exact .detach? hdetach

theorem counts_of_setField {e' : Editor} {id : BlockId} {key value : String}
    (h : e.setField id key value = .ok e') :
    e.graph.Counts 0 0 e'.graph := by
  obtain ⟨-, rfl⟩ := setField_eq_ok h
  exact .same rfl rfl

theorem counts_of_declare {e' : Editor} {name : String} (h : e.declare name = .ok e') :
    e.graph.Counts 0 0 e'.graph := by
  obtain ⟨graph, hdeclare, rfl⟩ := declare_eq_ok h
  exact .declare hdeclare

theorem counts_of_request {ε : Type} {m n : Nat} {r : Except ε Editor}
    (h : ∀ e', r = .ok e' → e.graph.Counts m n e'.graph) :
    e.graph.Counts m n (r.toOption.getD e).graph :=
  of_request (P := fun e' => e.graph.Counts m n e'.graph)
    ((Graph.Counts.same rfl rfl).of_le (Nat.zero_le _) (Nat.zero_le _)) h

/-- No operation hands out more ids than it asks for, or turns a counter back. -/
theorem counts_perform (e : Editor) (op : Operation) :
    e.graph.Counts op.blocksAsked op.chainsAsked (e.perform op).graph := by
  cases op with
  | beginDrag source pointer => exact counts_of_request fun _ h => counts_of_beginDrag h
  | updateDrag pointer => exact .same rfl rfl
  | endDrag pointer =>
    cases hdrag : e.drag with
    | none =>
      rw [perform, endDrag_of_drag_eq_none hdrag]
      exact (Graph.Counts.same rfl rfl).of_le (Nat.zero_le _) (Nat.zero_le _)
    | some d =>
      rw [perform, endDrag_eq hdrag]
      split
      · exact (Graph.Counts.same rfl rfl).of_le (Nat.zero_le _) (Nat.zero_le _)
      · exact counts_place _ _ _
  | pan dx dy => exact .same rfl rfl
  | zoom delta =>
    simp only [perform, zoomBy?]
    cases e.viewport.zoomBy? delta <;> exact .same rfl rfl
  | setField id key value => exact counts_of_request fun _ h => counts_of_setField h
  | declare name => exact counts_of_request fun _ h => counts_of_declare h
  | undeclare name => exact .same rfl rfl
  | setObjects ids => exact .same rfl rfl
  | load d => exact .load _ d
  | clear => exact .same rfl rfl

theorem unsaturated_of_perform {op : Operation} (h : (e.perform op).graph.Unsaturated) :
    e.graph.Unsaturated :=
  (counts_perform e op).unsaturated h

theorem counts_foldl (e : Editor) (ops : List Operation) :
    e.graph.Counts (Operation.total Operation.blocksAsked ops)
      (Operation.total Operation.chainsAsked ops)
      (ops.foldl perform e).graph := by
  induction ops generalizing e with
  | nil => exact .same rfl rfl
  | cons op rest ih => exact (counts_perform e op).trans (ih (e.perform op))

/-- The counters run out only in runs that ask for as many ids. -/
theorem unsaturated_run (config : EditorConfig) {ops : List Operation}
    (hblocks : Operation.total Operation.blocksAsked ops < Number.counterMax)
    (hchains : Operation.total Operation.chainsAsked ops < Number.counterMax) :
    (run config ops).graph.Unsaturated := by
  have hcounts := counts_foldl (ofConfig config) ops
  have hblock := Nat.le_trans hcounts.block (Nat.le_of_eq (Nat.zero_add _))
  have hchain := Nat.le_trans hcounts.chain (Nat.le_of_eq (Nat.zero_add _))
  exact ⟨Nat.lt_of_le_of_lt hblock hblocks, Nat.lt_of_le_of_lt hchain hchains⟩

end Editor

end BlockStudio
