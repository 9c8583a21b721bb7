import BlockStudio.Proofs.Issue

/-!
What an operation of the editor can do to the blocks. Every operation keeps the blocks, takes a new
one from the palette, lifts or drops a group, edits the values of one block, or replaces or clears
the program. Main statements: each operation is one of these changes, and no change loses track of a
block: the blocks that were there and those that are new are the blocks that are there and those
that are gone. So every run, whatever documents it loads, keeps all blocks as their definitions have
them.
-/
namespace BlockStudio

def Operation.document? : Operation → Option Document
  | .load d => some d
  | _ => none

namespace Editor

def dragged? (e : Editor) : Option (List PlacedBlock) := e.drag.map (·.blocks)

/-- All blocks of the program and of the drag, each with its slots emptied. -/
def preorder (e : Editor) : List PlacedBlock :=
  e.graph.preorder ++ Block.preorderList (e.dragged?.getD [])

def ids (e : Editor) : List BlockId := e.preorder.map (·.id)

/-- The ids that an operation hands out: that of a new block from the palette, or those of all
blocks of a document. -/
def newIds (e : Editor) : Operation → List BlockId
  | .beginDrag (.palette type) pointer =>
    match e.beginDrag (.palette type) pointer with
    | .ok e' => Block.ids (e'.dragged?.getD [])
    | .error _ => []
  | .load d => (e.load d).graph.ids
  | _ => []

/-- The ids tell blocks and chains apart and have been handed out, and a drag carries blocks. -/
structure Orderly (e : Editor) : Prop where
  blocks : DistinctUpTo e.graph.lastBlockId e.ids
  chains : DistinctUpTo e.graph.lastChainId e.graph.chainIds
  laden : ∀ blocks, e.dragged? = some blocks → blocks ≠ []

/-- What an operation makes of an editor, with the document that it loads, if any, and the ids that
it hands out. -/
inductive Change (e : Editor) : Option Document → List BlockId → Editor → Prop
  | kept {e' : Editor} (hchains : e'.graph.chains = e.graph.chains)
      (hblock : e'.graph.lastBlockId = e.graph.lastBlockId)
        (hchain : e'.graph.lastChainId = e.graph.lastChainId)
        (hdragged : e'.dragged? = e.dragged?) : Change e none [] e'
  | created {e' : Editor} {b : PlacedBlock} (hfree : e.dragged? = none) (hlone : b.preorder = [b])
      (hid : b.id = Number.countUp e.graph.lastBlockId 1)
      (hgraph : e'.graph = { e.graph with lastBlockId := b.id })
        (hdragged : e'.dragged? = some [b]) :
      Change e none [b.id] e'
  | lifted {e' : Editor} {id : BlockId} {blocks : List PlacedBlock} (hfree : e.dragged? = none)
      (hlifted : Lifted e.graph id blocks e'.graph)
        (hdragged : e'.dragged? = some blocks) : Change e none [] e'
  | dropped {e' : Editor} {blocks : List PlacedBlock} {outcome : DropOutcome}
    (hdragged : e.dragged? = some blocks) (hdropped : Dropped e.graph blocks outcome e'.graph)
      (hheadless : ∀ t, outcome = .snapped t → blocks.head?.any (·.isHat) = false)
        (hfree : e'.dragged? = none) :
      Change e none [] e'
  | edited {e' : Editor} {p : Place} {before after : List PlacedBlock} {b : PlacedBlock}
    {values : Table String} (hp : e.graph.chains = p.fill (before ++ b :: after))
      (hgraph : e'.graph = { e.graph with chains := p.fill (before ++ { b with values } :: after) })
      (hdragged : e'.dragged? = e.dragged?) : Change e none [] e'
  | loaded {e' : Editor} {d : Document} (hgraph : e'.graph = e.graph.load d)
    (hfree : e'.dragged? = none) :
      Change e (some d) e'.graph.ids e'
  | cleared {e' : Editor} (hgraph : e'.graph = e.graph.clear)
    (hfree : e'.dragged? = none) : Change e none [] e'

variable {e e' : Editor}

theorem Orderly.graph (h : e.Orderly) : e.graph.Distinct := by
  refine ⟨?_, h.chains.distinct⟩
  have hdistinct := h.blocks.distinct
  rw [ids, preorder, List.map_append] at hdistinct
  exact (List.nodup_append.1 hdistinct).1

section Operations

theorem change_palette {type : String} {pointer : Point}
    (h : e.beginDrag (.palette type) pointer = .ok e') :
    Change e none (Block.ids (e'.dragged?.getD [])) e' := by
  obtain ⟨hfree, blocks, grabOffset, graph, hpick, rfl⟩ := beginDrag_eq_ok h
  obtain ⟨_, b, -, rfl, hnew⟩ | ⟨id, hsource, -⟩ := pickUp_eq_ok hpick
  · obtain ⟨hlone, hid, rfl⟩ := Graph.newBlock_eq_ok hnew
    have hids : Block.ids [b] = [b.id] := by simp [Block.ids, Block.preorderList, hlone]
    exact hids ▸ .created (by simp [dragged?, hfree]) hlone hid rfl rfl
  · cases hsource

theorem mem_ids_of_beginDrag {id : BlockId} {pointer : Point}
    (h : e.beginDrag (.placed id) pointer = .ok e') :
    id ∈ e.graph.ids := by
  obtain ⟨-, blocks, grabOffset, graph, hpick, -⟩ := beginDrag_eq_ok h
  obtain ⟨_, _, hsource, -, -⟩ | ⟨_, hsource, hdetach⟩ := pickUp_eq_ok hpick
  · cases hsource
  · cases hsource
    by_cases hid : id ∈ e.graph.ids
    · exact hid
    · cases (Graph.detach?_eq_none hid).symm.trans hdetach

theorem change_placed (hwell : e.WellFormed) (he : e.Orderly) {id : BlockId} {pointer : Point}
    (h : e.beginDrag (.placed id) pointer = .ok e') : Change e none [] e' := by
  have hfree := (beginDrag_eq_ok h).1
  obtain ⟨d, graph, hbegin, hlifted⟩ :=
    exists_beginDrag he.graph hwell.graph.filled hfree (mem_ids_of_beginDrag h) pointer
  obtain rfl := Except.ok.inj (h.symm.trans hbegin)
  exact .lifted (by simp [dragged?, hfree]) hlifted rfl

theorem change_endDrag (he : e.Orderly) (pointer : Point) :
    Change e none [] (e.endDrag pointer).2 := by
  cases hdrag : e.drag with
  | none =>
    rw [endDrag_of_drag_eq_none hdrag]
    exact .kept rfl rfl rfl rfl
  | some d =>
    have hdragged : e.dragged? = some d.blocks := by simp [dragged?, hdrag]
    obtain ⟨outcome, graph, hend, hends⟩ :=
      exists_endsAs he.graph hdrag (he.laden _ hdragged) pointer
    rw [hend]
    exact .dropped hdragged hends.program hends.headless rfl

theorem change_setField (he : e.Orderly) {id : BlockId} {key value : String}
    (h : e.setField id key value = .ok e') :
    Change e none [] e' := by
  obtain ⟨⟨found, hfind⟩, rfl⟩ := setField_eq_ok h
  obtain ⟨p, before, b, after, hp, rfl⟩ :=
    Graph.exists_place_of_mem_ids (Graph.mem_ids_of_find? hfind)
  exact .edited hp (he.graph.editBlock_fill hp _) rfl

theorem change_declare {name : String} (h : e.declare name = .ok e') : Change e none [] e' := by
  obtain ⟨graph, hdeclare, rfl⟩ := declare_eq_ok h
  obtain ⟨-, -, rfl⟩ := Graph.declare_eq_ok hdeclare
  exact .kept rfl rfl rfl rfl

theorem change_perform (hwell : e.WellFormed) (he : e.Orderly) (op : Operation) :
    Change e op.document? (e.newIds op) (e.perform op) := by
  cases op with
  | beginDrag source pointer =>
    cases source with
    | palette type =>
      cases hresult : e.beginDrag (.palette type) pointer with
      | error err =>
        simp only [perform, newIds, hresult]
        exact .kept rfl rfl rfl rfl
      | ok e' =>
        simp only [perform, newIds, hresult]
        exact change_palette hresult
    | placed id =>
      exact of_request (P := fun e' => Change e none [] e') (.kept rfl rfl rfl rfl) fun _ h =>
        change_placed hwell he h
  | updateDrag pointer =>
    refine .kept rfl rfl rfl ?_
    simp [dragged?, perform, updateDrag, Function.comp_def, moveDrag]
  | endDrag pointer => exact change_endDrag he pointer
  | pan dx dy => exact .kept rfl rfl rfl rfl
  | zoom delta =>
    simp only [perform, zoomBy?]
    cases e.viewport.zoomBy? delta <;> exact .kept rfl rfl rfl rfl
  | setField id key value =>
    exact of_request (P := fun e' => Change e none [] e') (.kept rfl rfl rfl rfl) fun _ h =>
      change_setField he h
  | declare name =>
    exact of_request (P := fun e' => Change e none [] e') (.kept rfl rfl rfl rfl)
      fun _ h => change_declare h
  | undeclare name => exact .kept rfl rfl rfl rfl
  | setObjects ids => exact .kept rfl rfl rfl rfl
  | load d => exact .loaded rfl rfl
  | clear => exact .cleared rfl rfl

end Operations

/-- What tells a block from others, whatever its values and its slots hold. -/
def tag (b : PlacedBlock) : BlockId × String := (b.id, b.type)

def tags (e : Editor) : List (BlockId × String) := e.preorder.map tag

theorem ids_eq_tags (e : Editor) : e.ids = e.tags.map (·.1) := by
  simp [ids, tags, tag, Function.comp_def]

theorem tags_eq_of_dragged? {blocks : List PlacedBlock} (h : e.dragged? = some blocks) :
    e.tags = e.graph.preorder.map tag ++ (Block.preorderList blocks).map tag := by
  simp [tags, preorder, h]

theorem tags_eq_of_free (h : e.dragged? = none) : e.tags = e.graph.preorder.map tag := by
  simp [tags, preorder, h, Block.preorderList]

namespace Change
variable {loaded : Option Document} {new : List BlockId}

/-- The blocks that were there and those that are new are the blocks that are there and those that
are gone. -/
theorem conserves (h : Change e loaded new e') :
    ∃ made gone, made.map (·.1) = new ∧ (e.tags ++ made).Perm (e'.tags ++ gone) := by
  cases h with
  | kept hchains hblock hchain hdragged =>
    have hpreorder : e'.preorder = e.preorder := by
      rw [Editor.preorder, Editor.preorder, Graph.preorder, Graph.preorder, hchains, hdragged]
    exact ⟨[], [], rfl, by rw [tags, tags, hpreorder]⟩
  | @created _ b hfree hlone hid hgraph hdragged =>
    refine ⟨[tag b], [], rfl, ?_⟩
    rw [tags_eq_of_free hfree, tags_eq_of_dragged? hdragged, hgraph]
    simp [Block.preorderList, hlone, Graph.preorder]
  | lifted hfree hlifted hdragged =>
    obtain ⟨front, back, hbefore, hafter⟩ := hlifted.preorder
    refine ⟨[], [], rfl, ?_⟩
    rw [tags_eq_of_free hfree, tags_eq_of_dragged? hdragged, hbefore, hafter]
    simpa using List.Perm.append_left (front.map tag) List.perm_append_comm
  | @dropped _ blocks outcome hdragged hdropped hheadless hfree =>
    rw [tags_eq_of_dragged? hdragged, tags_eq_of_free hfree]
    by_cases houtcome : outcome = .discarded
    · subst houtcome
      refine ⟨[], (Block.preorderList blocks).map tag, rfl, ?_⟩
      rw [hdropped.graph_eq, List.append_nil]
    · obtain ⟨front, back, hbefore, hafter⟩ := hdropped.preorder houtcome
      refine ⟨[], [], rfl, ?_⟩
      rw [hbefore, hafter]
      simpa using List.Perm.append_left (front.map tag) List.perm_append_comm
  | @edited _ p before after b values hp hgraph hdragged =>
    have hp' : e'.graph.chains = p.fill (before ++ { b with values } :: after) := by rw [hgraph]
    have hblock : (Block.preorder { b with values }).map tag = b.preorder.map tag := by
      simp [Block.preorder_eq, Block.bare, tag]
    refine ⟨[], [], rfl, ?_⟩
    simp [tags, Editor.preorder, hdragged, preorder_of_fill hp, preorder_of_fill hp',
      Block.preorderList, hblock]
  | loaded hgraph hfree =>
    refine ⟨e'.tags, e.tags, ?_, List.perm_append_comm⟩
    rw [tags_eq_of_free hfree]
    simp [Graph.ids, tag, Function.comp_def]
  | cleared hgraph hfree =>
    refine ⟨[], e.tags, rfl, ?_⟩
    rw [tags_eq_of_free hfree, hgraph]
    simp [Graph.preorder, Graph.preorderChains, Graph.clear]

/-- The new ids are those that the counter hands out. -/
theorem issued (h : Change e loaded new e') (hunsaturated : e'.graph.Unsaturated) :
    Issued e.graph.lastBlockId new e'.graph.lastBlockId := by
  cases h with
  | kept hchains hblock hchain hdragged => exact hblock ▸ .nil _
  | @created _ b hfree hlone hid hgraph hdragged =>
    have hlast : e'.graph.lastBlockId = Number.countUp e.graph.lastBlockId 1 := by
      rw [hgraph, ← hid]
    rw [hlast, hid]
    exact .single (hlast ▸ hunsaturated.block)
  | lifted hfree hlifted hdragged => exact hlifted.lastBlockId ▸ .nil _
  | dropped hdragged hdropped hheadless hfree => exact hdropped.lastBlockId ▸ .nil _
  | edited hp hgraph hdragged => exact hgraph ▸ .nil _
  | loaded hgraph hfree =>
    rw [hgraph] at hunsaturated ⊢
    exact (Graph.grown_load hunsaturated).blocks
  | cleared hgraph hfree => exact hgraph ▸ .nil _

/-- A chain that is there was there, or has an id that the counter hands out. -/
theorem chainIds (h : Change e loaded new e') (hunsaturated : e'.graph.Unsaturated) :
    ∃ chains, e'.graph.chainIds.Sublist (e.graph.chainIds ++ chains) ∧
      Issued e.graph.lastChainId chains e'.graph.lastChainId := by
  have hnone : e'.graph.chainIds.Sublist e.graph.chainIds →
      e'.graph.lastChainId = e.graph.lastChainId →
      ∃ chains, e'.graph.chainIds.Sublist (e.graph.chainIds ++ chains) ∧
        Issued e.graph.lastChainId chains e'.graph.lastChainId :=
    fun hsub hlast => ⟨[], by simpa using hsub, hlast ▸ .nil _⟩
  cases h with
  | kept hchains hblock hchain hdragged => exact hnone (by simp [Graph.chainIds, hchains]) hchain
  | created hfree hlone hid hgraph hdragged =>
    exact hnone (by simp [Graph.chainIds, hgraph]) (by rw [hgraph])
  | lifted hfree hlifted hdragged => exact hnone hlifted.chainIds hlifted.lastChainId
  | dropped hdragged hdropped hheadless hfree =>
    rcases hdropped.chainIds with ⟨hsame, hlast⟩ | ⟨hnew, hlast⟩
    · exact hnone (hsame ▸ .refl _) hlast
    · refine ⟨[e'.graph.lastChainId], hnew ▸ .refl _, ?_⟩
      have hlt := hunsaturated.chain
      rw [hlast] at hlt ⊢
      exact .single hlt
  | @edited _ p before after b values hp hgraph hdragged =>
    have hsame : e'.graph.chainIds = e.graph.chainIds := by
      rw [hgraph, Graph.chainIds, Graph.chainIds, hp]
      exact p.chainIds_fill _ _
    exact hnone (hsame ▸ .refl _) (by rw [hgraph])
  | loaded hgraph hfree =>
    rw [hgraph] at hunsaturated ⊢
    exact ⟨_, List.sublist_append_right _ _, (Graph.grown_load hunsaturated).chains⟩
  | cleared hgraph hfree =>
    exact hnone (by simp [Graph.chainIds, hgraph, Graph.clear]) (by rw [hgraph, Graph.clear])

theorem laden (h : Change e loaded new e') (he : e.Orderly) :
    ∀ blocks, e'.dragged? = some blocks → blocks ≠ [] := by
  cases h with
  | kept hchains hblock hchain hdragged => exact hdragged ▸ he.laden
  | created hfree hlone hid hgraph hdragged => simp [hdragged]
  | lifted hfree hlifted hdragged =>
    rw [hdragged]
    rintro _ ⟨⟩
    exact hlifted.ne_nil
  | dropped hdragged hdropped hheadless hfree => simp [hfree]
  | edited hp hgraph hdragged => exact hdragged ▸ he.laden
  | loaded hgraph hfree => simp [hfree]
  | cleared hgraph hfree => simp [hfree]

end Change

/-- A change keeps an editor orderly as long as the counters have not run out. The ids that are
there are among the old ones, which are distinct, and the new ones, which come after them. -/
theorem Orderly.change {loaded : Option Document} {new : List BlockId} (he : e.Orderly)
    (h : Change e loaded new e') (hunsaturated : e'.graph.Unsaturated) : e'.Orderly := by
  obtain ⟨made, gone, hmade, hperm⟩ := h.conserves
  have hids : (e.ids ++ new).Perm (e'.ids ++ gone.map (·.1)) := by
    simpa [ids_eq_tags, ← hmade] using hperm.map (·.1)
  obtain ⟨chains, hchains, hissued⟩ := h.chainIds hunsaturated
  have hblocks := (he.blocks.append (h.issued hunsaturated)).of_perm hids
  exact ⟨hblocks.sublist (List.sublist_append_left _ _),
    (he.chains.append hissued).sublist hchains, h.laden he⟩

theorem Orderly.ofConfig (config : EditorConfig) : (ofConfig config).Orderly :=
  ⟨.nil _, .nil _, by simp [Editor.ofConfig, dragged?]⟩

/-- What holds of an empty editor and is kept by every change of an orderly one holds after every
run whose counters have not run out. -/
theorem run_change_induction {P : Editor → Prop} {config : EditorConfig} {ops : List Operation}
    (h : (run config ops).graph.Unsaturated) (hconfig : P (Editor.ofConfig config))
    (hchange : ∀ e op, op ∈ ops → e.Orderly → P e →
      Change e op.document? (e.newIds op) (e.perform op) →
      P (e.perform op)) : (run config ops).Orderly ∧ P (run config ops) := by
  have hrun : (run config ops).WellFormed ∧
      ((run config ops).graph.Unsaturated → (run config ops).Orderly ∧ P (run config ops)) := by
    refine List.foldlRecOn
      (motive := fun e => e.WellFormed ∧ (e.graph.Unsaturated → e.Orderly ∧ P e)) ops _
      ⟨.ofConfig config, fun _ => ⟨.ofConfig config, hconfig⟩⟩ ?_
    intro e ⟨hwell, hboth⟩ op hop
    refine ⟨hwell.perform op, fun hunsaturated => ?_⟩
    obtain ⟨he, hP⟩ := hboth (unsaturated_of_perform hunsaturated)
    have hperform := change_perform hwell he op
    exact ⟨he.change hperform hunsaturated, hchange e op hop he hP hperform⟩
  exact hrun.2 h

theorem orderly_run {config : EditorConfig} {ops : List Operation}
    (h : (run config ops).graph.Unsaturated) :
    (run config ops).Orderly :=
  (run_change_induction (P := fun _ => True) h trivial fun _ _ _ _ _ _ => trivial).1

/-- In every run, whatever documents are loaded: each block of the program and of the drag, at every
depth, fits its definition, no chain is empty, and the names of the variables are trimmed, not empty
and pairwise distinct; and as long as the counters have not run out a drag carries blocks. -/
theorem run_fits_definitions (config : EditorConfig) (ops : List Operation) :
    (∀ b ∈ (run config ops).preorder, b.Fits) ∧
    (∀ c ∈ (run config ops).graph.chains, c.blocks ≠ []) ∧
    VariablesFit (run config ops).graph.variableNames ∧
    ((run config ops).graph.Unsaturated → ∀ d, (run config ops).drag = some d → d.blocks ≠ []) := by
  have hwell := WellFormed.run config ops
  refine ⟨?_, hwell.graph.filled, hwell.graph.variablesFit, ?_⟩
  · intro b hb
    rcases List.mem_append.1 hb with hplaced | hdragged
    · obtain ⟨c, hc, hb⟩ := List.mem_flatMap.1 hplaced
      exact Block.completeList_iff_fits c.blocks |>.1 (hwell.graph.complete c hc) b hb
    · cases hdrag : (run config ops).drag with
      | none => simp [dragged?, hdrag, Block.preorderList] at hdragged
      | some d =>
        have hblocks : Block.CompleteList d.blocks := hwell.dragged d hdrag
        simp only [dragged?, hdrag, Option.map_some, Option.getD_some] at hdragged
        exact (Block.completeList_iff_fits d.blocks).1 hblocks b hdragged
  · intro h d hdrag
    exact (orderly_run h).laden d.blocks (by simp [dragged?, hdrag])

/-- A document with blocks of no type, a block without values and with the wrong slots, and names no
variable can have. -/
def untidyDocument : Document where
  chains :=
    [⟨7, 10, 20, [⟨(), "no_block", .empty, some [], none⟩, ⟨(), "if_cond", .empty, none, some []⟩]⟩,
      ⟨7, 0, 0, [⟨(), "no_block", .empty, none, none⟩]⟩]
  variableNames := ["", " x ", "x"]

/-- An untidy document is loaded, and what is left of it is picked up. -/
def tidying : List Operation := [.load untidyDocument, .beginDrag (.placed 1) ⟨270, 60⟩]

theorem run_tidying_fits_definitions :
    (run .standard tidying).graph.Unsaturated ∧ (run .standard tidying).ids = [1] ∧
    (∀ b ∈ (run .standard tidying).preorder, b.Fits) ∧
    (run .standard tidying).graph.variableNames = ["x"] ∧
    VariablesFit (run .standard tidying).graph.variableNames ∧
    ∀ d, (run .standard tidying).drag = some d → d.blocks ≠ [] := by
  have hunsaturated : (run .standard tidying).graph.Unsaturated :=
    unsaturated_run .standard (by decide) (by decide)
  obtain ⟨hfits, -, hvariables, hladen⟩ := run_fits_definitions .standard tidying
  exact ⟨hunsaturated, by decide +kernel, hfits, by decide +kernel, hvariables, hladen hunsaturated⟩

end Editor

end BlockStudio
