import BlockStudio.Editor
import BlockStudio.Proofs.WellFormed

/-!
Runs of the editor: any operations, in any order, from an empty canvas on. An operation that is
refused leaves the editor as it is. Main statement: in every run the program and the dragged group
stay well-formed.
-/
namespace BlockStudio

/-- What can be asked of an editor. -/
inductive Operation where
  | beginDrag (source : DragSource) (pointer : Point)
  | updateDrag (pointer : Point)
  | endDrag (pointer : Point)
  | pan (dx dy : Float32)
  | zoom (delta : Float32)
  | setField (id : BlockId) (key value : String)
  | declare (name : String)
  | undeclare (name : String)
  | setObjects (ids : List String)
  | load (d : Document)
  | clear

namespace Editor

def perform (e : Editor) : Operation → Editor
  | .beginDrag source pointer => (e.beginDrag source pointer).toOption.getD e
  | .updateDrag pointer => e.updateDrag pointer
  | .endDrag pointer => (e.endDrag pointer).2
  | .pan dx dy => e.panBy dx dy
  | .zoom delta => (e.zoomBy? delta).getD e
  | .setField id key value => (e.setField id key value).toOption.getD e
  | .declare name => (e.declare name).toOption.getD e
  | .undeclare name => (e.undeclare name).2
  | .setObjects ids => e.setObjects ids
  | .load d => e.load d
  | .clear => e.clear

def run (config : EditorConfig) (ops : List Operation) : Editor :=
  ops.foldl perform (ofConfig config)

theorem run_induction {P : Editor → Prop} (config : EditorConfig) (hconfig : P (ofConfig config))
    (hperform : ∀ e op, P e → P (e.perform op)) (ops : List Operation) : P (run config ops) :=
  List.foldlRecOn (motive := P) ops _ hconfig fun e he op _ => hperform e op he

/-- What is refused changes nothing. -/
theorem of_request {ε : Type} {P : Editor → Prop} {e : Editor} {r : Except ε Editor} (he : P e)
    (h : ∀ e', r = .ok e' → P e') : P (r.toOption.getD e) := by
  cases r with
  | error err => exact he
  | ok e' => exact h e' rfl

section
variable {e e' : Editor}

theorem beginDrag_eq_ok {source : DragSource} {pointer : Point}
    (h : e.beginDrag source pointer = .ok e') :
    e.drag = none ∧ ∃ blocks grabOffset graph,
    e.pickUp source pointer = .ok (blocks, grabOffset, graph) ∧
      e' =
        ({ e with graph, drag := some ⟨blocks, grabOffset, pointer, none⟩ } : Editor).updateDrag
          pointer := by
  unfold beginDrag at h
  split at h
  · cases h
  · rename_i hfree
    split at h
    · cases h
    · rename_i blocks grabOffset graph hpick
      cases h
      exact ⟨by simpa [isDragging] using hfree, blocks, grabOffset, graph, hpick, rfl⟩

/-- What is picked up is a new block or a part of the program. -/
theorem pickUp_eq_ok {source : DragSource} {pointer grabOffset : Point}
    {blocks : List PlacedBlock} {graph : Graph}
    (h : e.pickUp source pointer = .ok (blocks, grabOffset, graph)) :
    (∃ type b, source = .palette type ∧ blocks = [b] ∧
      e.graph.newBlock type e.objects e.graph.variableNames = .ok (b, graph)) ∨
    ∃ id, source = .placed id ∧ e.graph.detach? id = some (blocks, graph) := by
  cases source with
  | palette type =>
    simp only [pickUp] at h
    split at h
    · cases h
    · rename_i b g' hnew
      cases h
      exact .inl ⟨type, b, rfl, rfl, hnew⟩
  | placed id =>
    simp only [pickUp] at h
    split at h
    · cases h
    · split at h
      · cases h
      · rename_i hdetach
        cases h
        exact .inr ⟨id, rfl, hdetach⟩

/-- Blocks are attached by one insertion, and a chain may move up. -/
theorem splice?_eq_some {g g' : Graph} {target : SnapTarget} {blocks : List PlacedBlock}
    {height : Float32} (h : splice? g target blocks height = some g') :
    ∃ c index graph, g.insert c index blocks = .ok graph ∧
      (g' = graph ∨ ∃ id, g' = graph.editChain id (raise height)) := by
  have hinsert : ∀ {c index graph}, (g.insert c index blocks).toOption = some graph →
      g.insert c index blocks = .ok graph := by
    intro c index graph h
    cases hresult : g.insert c index blocks <;> simp_all [Except.toOption]
  cases target with
  | appendAfter id =>
    obtain ⟨l, -, h⟩ := Option.bind_eq_some_iff.1 h
    exact ⟨_, _, _, hinsert h, .inl rfl⟩
  | prependBefore id =>
    obtain ⟨l, -, h⟩ := Option.bind_eq_some_iff.1 h
    obtain ⟨graph, hgraph, h⟩ := Option.bind_eq_some_iff.1 h
    split at h
    · cases h
      exact ⟨_, _, _, hinsert hgraph, .inr ⟨_, rfl⟩⟩
    · cases h
      exact ⟨_, _, _, hinsert hgraph, .inl rfl⟩
  | nest owner slot => exact ⟨_, _, _, hinsert h, .inl rfl⟩

/-- A group is attached at a target, or it becomes a chain. -/
theorem place_snd (e : Editor) (d : Drag) (pointer : Point) :
    (∃ target, splice? e.graph target d.blocks (Layout.listHeight d.blocks) =
      some (e.place d pointer).2) ∨
      (e.place d pointer).2 = (e.graph.addChain (e.payloadCorner d pointer) d.blocks).2 := by
  unfold place
  dsimp only
  split
  · rename_i target g hattached
    obtain ⟨c, -, hattached⟩ := Option.bind_eq_some_iff.1 hattached
    obtain ⟨g', hsplice, heq⟩ := Option.map_eq_some_iff.1 hattached
    cases heq
    exact .inl ⟨c.target, hsplice⟩
  · exact .inr rfl

theorem endDrag_of_drag_eq_none (h : e.drag = none) (pointer : Point) :
    e.endDrag pointer = (none, e) := by
  simp [endDrag, updateDrag, h]

theorem endDrag_eq {d : Drag} (hdrag : e.drag = some d) (pointer : Point) : e.endDrag pointer =
    if e.discards pointer then (some .discarded, { e with drag := none })
    else
      ((e.place (e.moveDrag pointer d) pointer).1,
        { e with graph := (e.place (e.moveDrag pointer d) pointer).2, drag := none }) := by
  simp only [endDrag, updateDrag, hdrag, Option.map_some]
  rfl

theorem setField_eq_ok {id : BlockId} {key value : String} (h : e.setField id key value = .ok e') :
    (∃ b, e.graph.find? id = some b) ∧
      e' = { e with
        graph :=
          e.graph.editBlock id fun b => { b with values := b.values.insert key value } } := by
  unfold setField at h
  split at h
  · cases h
  · rename_i b hfind
    split at h
    · cases h
    · split at h
      · cases h
      · split at h
        · cases h
          exact ⟨⟨b, hfind⟩, rfl⟩
        · cases h

theorem declare_eq_ok {name : String} (h : e.declare name = .ok e') :
    ∃ graph, e.graph.declare name = .ok graph ∧ e' = { e with graph } := by
  unfold declare at h
  split at h
  · cases h
  · rename_i graph hdeclare
    cases h
    exact ⟨graph, hdeclare, rfl⟩

end

/-- The program is well-formed, and the blocks that are being dragged are complete. -/
structure WellFormed (e : Editor) : Prop where
  graph : e.graph.WellFormed
  dragged : ∀ d, e.drag = some d → Block.CompleteList d.blocks

namespace WellFormed
variable {e e' : Editor}

theorem ofConfig (config : EditorConfig) : (ofConfig config).WellFormed :=
  ⟨.empty, by simp [Editor.ofConfig]⟩

theorem beginDrag (he : e.WellFormed) {source : DragSource} {pointer : Point}
    (h : e.beginDrag source pointer = .ok e') : e'.WellFormed := by
  obtain ⟨-, blocks, grabOffset, graph, hpick, rfl⟩ := beginDrag_eq_ok h
  have hboth : Block.CompleteList blocks ∧ graph.WellFormed := by
    obtain ⟨type, b, -, rfl, hnew⟩ | ⟨id, -, hdetach⟩ := pickUp_eq_ok hpick
    · obtain ⟨hb, hgraph⟩ := he.graph.newBlock hnew
      exact ⟨⟨hb, trivial⟩, hgraph⟩
    · exact he.graph.detach? hdetach
  exact ⟨hboth.2, by simpa [Editor.updateDrag, moveDrag] using hboth.1⟩

theorem updateDrag (he : e.WellFormed) (pointer : Point) : (e.updateDrag pointer).WellFormed := by
  refine ⟨he.graph, ?_⟩
  intro d hd
  obtain ⟨d', hd', rfl⟩ := Option.map_eq_some_iff.1 hd
  exact he.dragged d' hd'

/-- Blocks that are attached anywhere leave the graph well-formed. -/
theorem of_splice? {g g' : Graph} (hg : g.WellFormed) {target : SnapTarget}
    {blocks : List PlacedBlock} {height : Float32} (hblocks : Block.CompleteList blocks)
    (h : splice? g target blocks height = some g') : g'.WellFormed := by
  obtain ⟨c, index, graph, hinsert, rfl | ⟨id, rfl⟩⟩ := splice?_eq_some h
  · exact hg.insert hblocks hinsert
  · exact (hg.insert hblocks hinsert).editChain id fun c => rfl

theorem endDrag (he : e.WellFormed) (pointer : Point) : (e.endDrag pointer).2.WellFormed := by
  cases hdrag : e.drag with
  | none => rwa [endDrag_of_drag_eq_none hdrag]
  | some d =>
    rw [endDrag_eq hdrag]
    split
    · exact ⟨he.graph, by simp⟩
    · have hblocks : Block.CompleteList (e.moveDrag pointer d).blocks := he.dragged d hdrag
      refine ⟨?_, by simp⟩
      obtain ⟨target, hsplice⟩ | hchain := place_snd e (e.moveDrag pointer d) pointer
      · exact of_splice? he.graph hblocks hsplice
      · exact hchain ▸ he.graph.addChain _ hblocks

theorem setField (he : e.WellFormed) {id : BlockId} {key value : String}
    (h : e.setField id key value = .ok e') :
    e'.WellFormed := by
  obtain ⟨-, rfl⟩ := setField_eq_ok h
  exact ⟨he.graph.editBlock id fun b hb => Block.insert_complete hb key value, he.dragged⟩

theorem declare (he : e.WellFormed) {name : String} (h : e.declare name = .ok e') :
    e'.WellFormed := by
  obtain ⟨graph, hdeclare, rfl⟩ := declare_eq_ok h
  exact ⟨he.graph.declare hdeclare, he.dragged⟩

theorem perform (he : e.WellFormed) (op : Operation) : (e.perform op).WellFormed := by
  cases op with
  | beginDrag source pointer => exact of_request he fun _ h => he.beginDrag h
  | updateDrag pointer => exact he.updateDrag pointer
  | endDrag pointer => exact he.endDrag pointer
  | pan dx dy => exact ⟨he.graph, he.dragged⟩
  | zoom delta =>
    simp only [Editor.perform, zoomBy?]
    cases e.viewport.zoomBy? delta with
    | none => exact he
    | some viewport => exact ⟨he.graph, he.dragged⟩
  | setField id key value => exact of_request he fun _ h => he.setField h
  | declare name => exact of_request he fun _ h => he.declare h
  | undeclare name => exact ⟨he.graph.undeclare name, he.dragged⟩
  | setObjects ids => exact ⟨he.graph, he.dragged⟩
  | load d => exact ⟨.load e.graph d, by simp [Editor.perform, Editor.load]⟩
  | clear => exact ⟨.clear e.graph, by simp [Editor.perform, Editor.clear]⟩

theorem run (config : EditorConfig) (ops : List Operation) : (run config ops).WellFormed :=
  run_induction config (ofConfig config) (fun _ op he => he.perform op) ops

end WellFormed

end Editor

end BlockStudio
