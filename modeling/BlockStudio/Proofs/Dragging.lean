import BlockStudio.Proofs.Changes

/-!
Drags in runs of the editor. Main statement: as long as the counters have not run out, exactly the
blocks of the program can be picked up, each with all that follow it in its container, and the end
of a drag throws the group away or puts it in one piece where its outcome says, with the other
blocks in their order.
-/
namespace BlockStudio

namespace Editor

/-- Dragging neither loses nor doubles blocks and puts them where it says. -/
structure DragsSoundly (e : Editor) (pointer : Point) : Prop where
  /-- Exactly the blocks of the program can be picked up, when nothing is dragged. -/
  begins : ∀ id, (∃ e', e.beginDrag (.placed id) pointer = .ok e') ↔
    e.drag = none ∧ id ∈ e.graph.ids
  /-- What is picked up is a block with all that follow it in its container. -/
  lifts : ∀ id e', e.beginDrag (.placed id) pointer = .ok e' →
    ∃ d graph, e' = { e with graph, drag := some d } ∧ Lifted e.graph id d.blocks graph ∧
      ∃ front back, e.graph.preorder = front ++ Block.preorderList d.blocks ++ back ∧
        graph.preorder = front ++ back
  rests : e.drag = none → e.endDrag pointer = (none, e)
  /-- A drag ends with an outcome, and the program is what the outcome says. -/
  ends : ∀ d, e.drag = some d → ∃ outcome graph,
    e.endDrag pointer = (some outcome, { e with graph, drag := none }) ∧
    e.EndsAs d pointer outcome graph ∧
      (outcome = .discarded → graph = e.graph) ∧
      (outcome ≠ .discarded → ∃ front back,
        e.graph.preorder = front ++ back ∧
          graph.preorder = front ++ Block.preorderList d.blocks ++ back) ∧
      ∀ c, outcome = .newChain c → c ∉ e.graph.chainIds

variable {e : Editor}

theorem Orderly.countUp_notMem_chainIds (he : e.Orderly) (h : e.graph.Unsaturated) :
    Number.countUp e.graph.lastChainId 1 ∉ e.graph.chainIds := by
  intro hmem
  have hle := (he.chains.bounded _ hmem).2
  rw [Number.countUp_of_le (Nat.succ_le_of_lt h.chain)] at hle
  exact absurd hle (Nat.not_succ_le_self _)

theorem notMem_chainIds_of_dropped (he : e.Orderly) (h : e.graph.Unsaturated)
    {blocks : List PlacedBlock} {graph : Graph} {c : ChainId}
    (hdropped : Dropped e.graph blocks (.newChain c) graph) : c ∉ e.graph.chainIds := by
  cases hdropped
  exact he.countUp_notMem_chainIds h

theorem exists_beginDrag_iff (hwell : e.WellFormed) (he : e.Orderly) (id : BlockId)
    (pointer : Point) :
    (∃ e', e.beginDrag (.placed id) pointer = .ok e') ↔ e.drag = none ∧ id ∈ e.graph.ids := by
  constructor
  · rintro ⟨e', hbegin⟩
    exact ⟨(beginDrag_eq_ok hbegin).1, mem_ids_of_beginDrag hbegin⟩
  · rintro ⟨hfree, hid⟩
    obtain ⟨d, graph, hbegin, -⟩ := exists_beginDrag he.graph hwell.graph.filled hfree hid pointer
    exact ⟨_, hbegin⟩

theorem lifted_of_beginDrag (hwell : e.WellFormed) (he : e.Orderly) {id : BlockId}
    {pointer : Point} {e' : Editor} (h : e.beginDrag (.placed id) pointer = .ok e') :
    ∃ d graph, e' = { e with graph, drag := some d } ∧ Lifted e.graph id d.blocks graph := by
  obtain ⟨d, graph, hbegin, hlifted⟩ :=
    exists_beginDrag he.graph hwell.graph.filled (beginDrag_eq_ok h).1
      (mem_ids_of_beginDrag h) pointer
  exact ⟨d, graph, Except.ok.inj (h.symm.trans hbegin), hlifted⟩

/-- At every step of a run whose counters have not run out, dragging is sound wherever the pointer
is. -/
theorem run_drags_soundly (config : EditorConfig) (ops : List Operation)
    (h : (run config ops).graph.Unsaturated) (pointer : Point) :
    (run config ops).DragsSoundly pointer := by
  have hwell := WellFormed.run config ops
  have he := orderly_run h
  refine ⟨fun id => exists_beginDrag_iff hwell he id pointer, ?_,
    fun hfree => endDrag_of_drag_eq_none hfree pointer, ?_⟩
  · intro id e' hbegin
    obtain ⟨d, graph, heq, hlifted⟩ := lifted_of_beginDrag hwell he hbegin
    exact ⟨d, graph, heq, hlifted, hlifted.preorder⟩
  · intro d hdrag
    have hblocks : d.blocks ≠ [] := he.laden _ (by simp [dragged?, hdrag])
    obtain ⟨outcome, graph, hend, hends⟩ := exists_endsAs he.graph hdrag hblocks pointer
    refine ⟨outcome, graph, hend, hends, ?_, hends.program.preorder, ?_⟩
    · rintro rfl
      exact hends.program.graph_eq
    · rintro c rfl
      exact notMem_chainIds_of_dropped he h hends.program

/-- A block is picked up from the slot of another one. -/
def unnesting : List Operation := [.load Document.nestedDocument, .beginDrag (.placed 2) ⟨270, 100⟩]

theorem run_unnesting_drags_soundly :
    (run .standard unnesting).graph.Unsaturated ∧ (run .standard unnesting).DragsSoundly ⟨275, 70⟩ ∧
    ((run .standard unnesting).endDrag ⟨275, 70⟩).1 = some (.snapped (.appendAfter 1)) ∧
    ((run .standard unnesting).endDrag ⟨275, 70⟩).2.ids = [1, 2, 3] := by
  have hunsaturated : (run .standard unnesting).graph.Unsaturated :=
    unsaturated_run .standard (by decide) (by decide)
  exact ⟨hunsaturated, run_drags_soundly .standard unnesting hunsaturated ⟨275, 70⟩,
    by decide +kernel, by decide +kernel⟩

end Editor

end BlockStudio
