import BlockStudio.Proofs.Changes

/-!
The identity of blocks over a run of the editor. Main statement: as long as the counters have not
run out, ids tell all blocks and all chains apart at every step, no id is handed out twice, an id
never names blocks of two types, and no block that is there after a load or a clear has an id from
before.
-/
namespace BlockStudio

namespace Editor

/-- The block ids that a run hands out from an editor on. -/
def issuedFrom (e : Editor) : List Operation → List BlockId
  | [] => []
  | op :: rest => e.newIds op ++ issuedFrom (e.perform op) rest

def issued (config : EditorConfig) (ops : List Operation) : List BlockId :=
  issuedFrom (ofConfig config) ops

section
variable {e : Editor} {ops : List Operation}

theorem unsaturated_of_foldl (h : (ops.foldl perform e).graph.Unsaturated) : e.graph.Unsaturated :=
  (counts_foldl e ops).unsaturated h

/-- A run hands out the numbers that come next, each once. -/
theorem issued_issuedFrom (hwell : e.WellFormed) (he : e.Orderly)
    (h : (ops.foldl perform e).graph.Unsaturated) :
    Issued e.graph.lastBlockId (e.issuedFrom ops) (ops.foldl perform e).graph.lastBlockId := by
  induction ops generalizing e with
  | nil => exact .nil _
  | cons op rest ih =>
    have hunsaturated : (e.perform op).graph.Unsaturated := unsaturated_of_foldl h
    have hchange := change_perform hwell he op
    exact (hchange.issued hunsaturated).append
      (ih (hwell.perform op) (he.change hchange hunsaturated) h)

/-- A block that is there after a run was there before, with the same type, or has an id handed out
since. -/
theorem tag_mem_of_mem_foldl (hwell : e.WellFormed) (he : e.Orderly)
    (h : (ops.foldl perform e).graph.Unsaturated) {t : BlockId × String}
    (ht : t ∈ (ops.foldl perform e).tags) : t ∈ e.tags ∨ e.graph.lastBlockId < t.1 := by
  induction ops generalizing e with
  | nil => exact .inl ht
  | cons op rest ih =>
    have hunsaturated : (e.perform op).graph.Unsaturated := unsaturated_of_foldl h
    have hchange := change_perform hwell he op
    have hissued := hchange.issued hunsaturated
    rcases ih (hwell.perform op) (he.change hchange hunsaturated) h ht with hthere | hlater
    · obtain ⟨made, gone, hmade, hperm⟩ := hchange.conserves
      rcases List.mem_append.1 (hperm.symm.subset (List.mem_append_left _ hthere)) with hold | hnew
      · exact .inl hold
      · have hid : t.1 ∈ e.newIds op := hmade ▸ List.mem_map_of_mem hnew
        exact .inr (hissued.mem_iff.1 hid).1
    · exact .inr (Nat.lt_of_le_of_lt hissued.le hlater)

/-- An id names blocks of one type. -/
theorem type_eq_of_mem_tags (he : e.Orderly) {id : BlockId} {type type' : String}
    (h : (id, type) ∈ e.tags) (h' : (id, type') ∈ e.tags) : type = type' := by
  have hdistinct : e.tags.Pairwise fun s t => s.1 ≠ t.1 :=
    List.pairwise_map.1 (ids_eq_tags e ▸ he.blocks.distinct)
  have hsame :=
    List.Pairwise.forall_of_forall_of_flip (R := fun s t => s.1 = t.1 → s.2 = t.2)
      (fun _ _ _ => rfl) (hdistinct.imp fun hne heq => absurd heq hne)
      (hdistinct.imp fun hne heq => absurd heq.symm hne)
  exact hsame h h' rfl

theorem ids_eq_of_dragged?_none (h : e.dragged? = none) : e.ids = e.graph.ids := by
  simp [ids, preorder, h, Block.preorderList, Graph.ids]

/-- After a load or a clear no block has an id from before, whatever else is done. -/
theorem lt_of_mem_replaced (hwell : e.WellFormed) (he : e.Orderly) {op : Operation}
    (hop : op = .clear ∨ ∃ d, op = .load d)
    (h : (ops.foldl perform (e.perform op)).graph.Unsaturated) {id : BlockId}
    (hid : id ∈ (ops.foldl perform (e.perform op)).ids) : e.graph.lastBlockId < id := by
  have hunsaturated : (e.perform op).graph.Unsaturated := unsaturated_of_foldl h
  have hchange := change_perform hwell he op
  rw [ids_eq_tags] at hid
  obtain ⟨t, ht, rfl⟩ := List.mem_map.1 hid
  rcases tag_mem_of_mem_foldl (hwell.perform op) (he.change hchange hunsaturated) h ht
      with hthere | hlater
  · have hfirst : t.1 ∈ (e.perform op).ids := ids_eq_tags _ ▸ List.mem_map_of_mem hthere
    rcases hop with rfl | ⟨d, rfl⟩
    · cases hfirst
    · rw [ids_eq_of_dragged?_none rfl] at hfirst
      exact ((Graph.grown_load hunsaturated).blocks.mem_iff.1 hfirst).1
  · exact Nat.lt_of_le_of_lt (hchange.issued hunsaturated).le hlater

end

theorem run_append (config : EditorConfig) (ops ops' : List Operation) :
    run config (ops ++ ops') = ops'.foldl perform (run config ops) := List.foldl_append

theorem issued_run {config : EditorConfig} {ops : List Operation}
    (h : (run config ops).graph.Unsaturated) :
    Issued 0 (issued config ops) (run config ops).graph.lastBlockId :=
  issued_issuedFrom (.ofConfig config) (.ofConfig config) h

/-- At every step of a run whose counters have not run out: the ids of all blocks of the program and
of the drag are pairwise distinct, positive and handed out before, and so are those of the chains;
the ids handed out are the numbers from one on, each once; an id names blocks of one type only; no
id from before a load or a clear names a block after it; and the blocks of a loaded document have
the next ids. -/
theorem run_tells_blocks_apart (config : EditorConfig) (ops : List Operation)
    (h : (run config ops).graph.Unsaturated) :
    (run config ops).ids.Nodup ∧
    (∀ id ∈ (run config ops).ids, id ∈ issued config ops ∧ 0 < id ∧
      id ≤ (run config ops).graph.lastBlockId) ∧
    (run config ops).graph.chainIds.Nodup ∧
    (issued config ops).Nodup ∧
    (issued config ops).Perm (List.range' 1 (run config ops).graph.lastBlockId) ∧
    (∀ before after, ops = before ++ after → ∀ b ∈ (run config before).preorder,
      ∀ b' ∈ (run config ops).preorder, b.id = b'.id → b.type = b'.type) ∧
    (∀ before op after, ops = before ++ op :: after → (op = .clear ∨ ∃ d, op = .load d) →
      ∀ id ∈ issued config before, id ∉ (run config ops).ids) ∧
    (∀ before d, ops = before ++ [.load d] →
      (run config ops).ids.Perm
        (List.range' ((run config before).graph.lastBlockId + 1)
          (run config ops).graph.blockCount)) := by
  have horderly := orderly_run h
  have hissued := issued_run h
  have hprefix : ∀ before after, ops = before ++ after →
      (run config before).graph.Unsaturated ∧
      (after.foldl perform (run config before)).graph.Unsaturated := by
    rintro before after rfl
    rw [run_append] at h
    exact ⟨unsaturated_of_foldl h, h⟩
  refine ⟨horderly.blocks.distinct, ?_, horderly.chains.distinct, hissued.nodup, ?_, ?_, ?_, ?_⟩
  · intro id hid
    have hbounds := horderly.blocks.bounded id hid
    exact ⟨hissued.mem_iff.2 hbounds, hbounds⟩
  · have hlast : (run config ops).graph.lastBlockId = (issued config ops).length := by
      rw [hissued.next_eq, Nat.zero_add]
    rw [hlast]
    exact hissued.perm
  · rintro before after rfl b hb b' hb' hid
    obtain ⟨hbefore, hafter⟩ := hprefix before after rfl
    have hstart := orderly_run hbefore
    have htag : tag b' ∈ (after.foldl perform (run config before)).tags := by
      rw [← run_append]
      exact List.mem_map_of_mem hb'
    rcases tag_mem_of_mem_foldl (.run config before) hstart hafter htag with hthere | hlater
    · exact type_eq_of_mem_tags hstart (List.mem_map_of_mem hb) (hid ▸ hthere)
    · have hle := (hstart.blocks.bounded b.id (List.mem_map_of_mem hb)).2
      exact absurd (hid ▸ hlater) (Nat.not_lt_of_le hle)
  · rintro before op after rfl hop id hold hid
    obtain ⟨hbefore, hafter⟩ := hprefix before (op :: after) rfl
    have hle := ((issued_run hbefore).mem_iff.1 hold).2
    rw [run_append] at hid
    have hlt := lt_of_mem_replaced (.run config before) (orderly_run hbefore) hop hafter hid
    exact absurd hlt (Nat.not_lt_of_le hle)
  · rintro before d rfl
    obtain ⟨-, hload⟩ := hprefix before [.load d] rfl
    rw [run_append, ids_eq_of_dragged?_none rfl]
    have hcount : ((run config before).graph.load d).ids.length =
        ((run config before).graph.load d).blockCount := by
      rw [Graph.ids, List.length_map, Graph.preorder, Graph.preorderChains_eq,
        Block.length_preorderList, Graph.blockCount]
    exact hcount ▸ (Graph.grown_load hload).blocks.perm

/-- A document is loaded, a new block is put beside it, a block is picked up, and the document is
loaded again. -/
def reloading : List Operation :=
  [.load Document.nestedDocument, .beginDrag (.palette "end_game") ⟨100, 100⟩, .endDrag ⟨600, 300⟩,
    .beginDrag (.placed 2) ⟨300, 80⟩] ++ [.load Document.nestedDocument]

theorem run_reloading_tells_blocks_apart :
    (run .standard reloading).graph.Unsaturated ∧
    issued .standard reloading = [1, 3, 2, 4, 5, 7, 6] ∧ (issued .standard reloading).Nodup ∧
    (run .standard reloading).ids.Nodup ∧
    (∀ id ∈ issued .standard (reloading.take 4), id ∉ (run .standard reloading).ids) ∧
    (run .standard reloading).ids.Perm (List.range' 5 3) := by
  have hunsaturated : (run .standard reloading).graph.Unsaturated :=
    unsaturated_run .standard (by decide) (by decide)
  have hids : issued .standard reloading = [1, 3, 2, 4, 5, 7, 6] := by decide +kernel
  have hlast : (run .standard (reloading.take 4)).graph.lastBlockId = 4 := by decide +kernel
  have hcount : (run .standard reloading).graph.blockCount = 3 := by decide +kernel
  obtain ⟨hdistinct, -, -, hissued, -, -, hreplaced, hloaded⟩ :=
    run_tells_blocks_apart .standard reloading hunsaturated
  have hnext := hloaded (reloading.take 4) Document.nestedDocument rfl
  rw [hlast, hcount] at hnext
  exact ⟨hunsaturated, hids, hissued, hdistinct,
    hreplaced (reloading.take 4) _ [] rfl (.inr ⟨_, rfl⟩), hnext⟩

end Editor

end BlockStudio
