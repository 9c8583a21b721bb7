import BlockStudio.Proofs.EditorRuns

/-!
Documents through a graph and back. A document that is well-formed comes back as it was, with its
chains numbered from one on, and what comes back from any document is well-formed and numbered. Main
statement: for the program of an editor the way back only numbers the chains, and for any document
it has nothing left to do a second time.
-/
namespace BlockStudio

namespace Document

/-- The document that comes back from a graph of its own. -/
def rebuild (d : Document) : Document := (Graph.ofDocument d).toDocument

/-- The document with its chains numbered from one on, as far as chain ids go. -/
def renumber (d : Document) : Document :=
  { d with chains := d.chains.mapIdx fun i c => { c with id := Number.countUp i 1 } }

/-- Every block fits the catalogue at every depth, no chain is empty, and the variables are trimmed,
named and told apart. -/
structure WellFormed (d : Document) : Prop where
  complete : ∀ c ∈ d.chains, Block.CompleteList c.blocks
  filled : ∀ c ∈ d.chains, c.blocks ≠ []
  variablesFit : VariablesFit d.variableNames

end Document

/-- What a chain of a document holds apart from its id. -/
def DocumentChain.content (c : DocumentChain) : DocumentChain := { c with id := 0 }

/-- Numbering chains makes up for all difference in their ids. -/
theorem Document.renumber_congr {d d' : Document}
    (hchains : d.chains.map DocumentChain.content = d'.chains.map DocumentChain.content)
    (hvariables : d.variableNames = d'.variableNames) : d.renumber = d'.renumber := by
  have hcontent : ∀ cs : List DocumentChain,
      (cs.mapIdx fun i c => { c with id := Number.countUp i 1 }) =
        (cs.map DocumentChain.content).mapIdx fun i c => { c with id := Number.countUp i 1 } := by
    intro cs
    apply List.ext_getElem
    · simp
    · intro i _ _
      simp [DocumentChain.content]
  simp only [Document.renumber, hcontent d.chains, hcontent d'.chains, hchains, hvariables]

namespace Graph

mutual

/-- A complete block loses nothing when it is rebuilt. -/
theorem forget_rebuildBlock (last : BlockId) :
    ∀ {b : Node}, b.Complete → ∃ b', (rebuildBlock last b).1 = some b' ∧ b'.forget = b
  | ⟨(), type, values, children, elseChildren⟩, ⟨d, htype, hvalues, hfirst, hsecond⟩ => by
    simp only [rebuildBlock, htype, Option.some.injEq, exists_eq_left', Block.forget]
    rw [withDefaults_of_contains hvalues, forget_rebuildSlot _ (by simpa using hfirst),
      forget_rebuildSlot _ (by simpa using hsecond)]

theorem forget_rebuildSlot (last : BlockId) {wanted : Bool} :
    ∀ {s : Option (List Node)}, Block.CompleteSlot (wanted = true) s →
      Block.forgetSlot (rebuildSlot wanted last s).1 = s
  | none, h => by
    rw [rebuildSlot, if_neg h]
    rfl
  | some bs, ⟨hwanted, hbs⟩ => by
    rw [rebuildSlot, if_pos hwanted, Block.forgetSlot, forget_rebuildList last hbs]

theorem forget_rebuildList (last : BlockId) :
    ∀ {bs : List Node}, Block.CompleteList bs → Block.forgetList (rebuildList last bs).1 = bs
  | [], _ => rfl
  | b :: rest, ⟨hb, hrest⟩ => by
    obtain ⟨b', hb', hforget⟩ := forget_rebuildBlock last hb
    simp only [rebuildList, hb', Option.toList_some, List.singleton_append,
      Block.forgetList, hforget, forget_rebuildList _ hrest]

end

/-- The ids of the chains count from one on. -/
structure Numbered (g : Graph) : Prop where
  chains : ∀ i (hi : i < g.chains.length), g.chains[i].id = Number.countUp i 1
  last : g.lastChainId = min g.chains.length Number.counterMax

section
variable {g : Graph}

theorem Numbered.addChain (hg : g.Numbered) (position : Point) (blocks : List PlacedBlock) :
    (g.addChain position blocks).2.Numbered := by
  unfold Graph.addChain
  split
  · exact hg
  · have hid : Number.countUp g.lastChainId 1 = Number.countUp g.chains.length 1 := by
      simp only [hg.last, Number.countUp]
      omega
    refine ⟨?_, ?_⟩
    · intro i hi
      rw [List.getElem_append]
      split
      · exact hg.chains i _
      · obtain rfl : i = g.chains.length := by
          simp only [List.length_append, List.length_singleton] at hi
          omega
        simpa using hid
    · rw [hid, List.length_append, List.length_singleton, Number.countUp]

theorem Numbered.addDocumentChain (hg : g.Numbered) (c : DocumentChain) :
    (g.addDocumentChain c).Numbered := by
  have hlast :
      ({ g with lastBlockId := (rebuildList g.lastBlockId c.blocks).2 } : Graph).Numbered :=
    ⟨hg.chains, hg.last⟩
  exact hlast.addChain _ _

/-- A variable of a document changes the names of the variables at most. -/
theorem addDocumentVariable_eq (g : Graph) (name : String) :
    ∃ names, g.addDocumentVariable name = { g with variableNames := names } := by
  unfold addDocumentVariable
  cases hdeclare : g.declare name with
  | error err => exact ⟨g.variableNames, rfl⟩
  | ok g' =>
    obtain ⟨-, -, rfl⟩ := declare_eq_ok hdeclare
    exact ⟨_, rfl⟩

theorem Numbered.addDocumentVariable (hg : g.Numbered) (name : String) :
    (g.addDocumentVariable name).Numbered := by
  obtain ⟨names, hnames⟩ := addDocumentVariable_eq g name
  rw [hnames]
  exact ⟨hg.chains, hg.last⟩

theorem numbered_ofDocument (d : Document) : (ofDocument d).Numbered := by
  have hvariables : (d.variableNames.foldl Graph.addDocumentVariable empty.clear).Numbered :=
    List.foldlRecOn (motive := Numbered) _ _ ⟨by simp [clear, empty], rfl⟩ fun _ hg name _ =>
      hg.addDocumentVariable name
  exact List.foldlRecOn (motive := Numbered) _ _ hvariables fun _ hg c _ => hg.addDocumentChain c

theorem toDocument_of_wellFormed (hg : g.WellFormed) :
    g.toDocument = ⟨g.chains.map chainToDocument, g.variableNames⟩ := by
  rw [toDocument, filter_eq_self_of_filled hg.filled]

theorem WellFormed.toDocument (hg : g.WellFormed) : g.toDocument.WellFormed := by
  rw [toDocument_of_wellFormed hg]
  refine ⟨?_, ?_, hg.variablesFit⟩
  · simp only [List.forall_mem_map]
    exact fun c hc => (Block.completeList_forget c.blocks).2 (hg.complete c hc)
  · simp only [List.forall_mem_map]
    intro c hc
    simpa [chainToDocument, Block.forgetList_eq_map] using hg.filled c hc

theorem Numbered.renumber_toDocument (hg : g.Numbered) (hwell : g.WellFormed) :
    g.toDocument.renumber = g.toDocument := by
  have hnumbered :
      ((g.chains.map chainToDocument).mapIdx fun i c => { c with id := Number.countUp i 1 }) =
      g.chains.map chainToDocument := by
    apply List.ext_getElem
    · simp
    · intro i _ hi
      rw [List.length_map] at hi
      simp [chainToDocument, hg.chains i hi]
  simp only [toDocument_of_wellFormed hwell, Document.renumber, hnumbered]

theorem addDocumentVariable_of_fit {name : String} {rest : List String}
    (h : VariablesFit (g.variableNames ++ name :: rest)) :
    g.addDocumentVariable name = { g with variableNames := g.variableNames ++ [name] } := by
  have htrimmed : Text.trim name = name := h.trimmed name (by simp)
  have hnamed : name ≠ "" := h.named name (by simp)
  have hnew : name ∉ g.variableNames :=
    fun hmem => (List.nodup_append.1 h.distinct).2.2 name hmem name (by simp) rfl
  simp [Graph.addDocumentVariable, Graph.declare, htrimmed, hnamed, hnew]

/-- Names that fit are declared as they are. -/
theorem variableNames_addDocumentVariables {names : List String}
    (h : VariablesFit (g.variableNames ++ names)) :
    (names.foldl addDocumentVariable g).variableNames = g.variableNames ++ names := by
  induction names generalizing g with
  | nil => simp
  | cons name rest ih =>
    rw [List.foldl_cons, addDocumentVariable_of_fit h, ih]
    · simp
    · simpa using h

theorem chains_addDocumentVariable (name : String) :
    (g.addDocumentVariable name).chains = g.chains := by
  obtain ⟨names, hnames⟩ := addDocumentVariable_eq g name
  rw [hnames]

theorem chains_addDocumentVariables (g : Graph) (names : List String) :
    (names.foldl addDocumentVariable g).chains = g.chains :=
  List.foldlRecOn (motive := fun g' : Graph => g'.chains = g.chains) _ _ rfl
    fun _ hg' name _ => (chains_addDocumentVariable name).trans hg'

theorem variableNames_addDocumentChain (c : DocumentChain) :
    (g.addDocumentChain c).variableNames = g.variableNames := by
  simp only [addDocumentChain, addChain]
  split <;> rfl

theorem variableNames_addDocumentChains (g : Graph) (cs : List DocumentChain) :
    (cs.foldl addDocumentChain g).variableNames = g.variableNames :=
  List.foldlRecOn (motive := fun g' : Graph => g'.variableNames = g.variableNames) _ _ rfl
    fun _ hg' c _ => (variableNames_addDocumentChain c).trans hg'

/-- A chain of complete blocks is added with all that it holds. -/
theorem content_addDocumentChain {c : DocumentChain} (hcomplete : Block.CompleteList c.blocks)
    (hfilled : c.blocks ≠ []) :
    (g.addDocumentChain c).chains.map (DocumentChain.content ∘ chainToDocument) =
      g.chains.map (DocumentChain.content ∘ chainToDocument) ++ [c.content] := by
  have hforget := forget_rebuildList g.lastBlockId hcomplete
  have hrebuilt : (rebuildList g.lastBlockId c.blocks).1 ≠ [] := by
    intro hnil
    rw [hnil] at hforget
    exact hfilled hforget.symm
  simp [addDocumentChain, addChain, hrebuilt, chainToDocument, DocumentChain.content, hforget]

theorem content_addDocumentChains {cs : List DocumentChain}
    (hcomplete : ∀ c ∈ cs, Block.CompleteList c.blocks) (hfilled : ∀ c ∈ cs, c.blocks ≠ []) :
    (cs.foldl addDocumentChain g).chains.map (DocumentChain.content ∘ chainToDocument) =
      g.chains.map (DocumentChain.content ∘ chainToDocument) ++ cs.map DocumentChain.content := by
  induction cs generalizing g with
  | nil => simp
  | cons c rest ih =>
    obtain ⟨hc, hrest⟩ := List.forall_mem_cons.1 hcomplete
    obtain ⟨hc', hrest'⟩ := List.forall_mem_cons.1 hfilled
    rw [List.foldl_cons, ih hrest hrest', content_addDocumentChain hc hc']
    simp

end

end Graph

namespace Document

theorem ofDocument_wellFormed (d : Document) : (Graph.ofDocument d).WellFormed := .load _ d

theorem rebuild_wellFormed (d : Document) : d.rebuild.WellFormed :=
  (ofDocument_wellFormed d).toDocument

theorem renumber_rebuild (d : Document) : d.rebuild.renumber = d.rebuild :=
  (Graph.numbered_ofDocument d).renumber_toDocument (ofDocument_wellFormed d)

theorem variableNames_rebuild {d : Document} (hd : d.WellFormed) :
    d.rebuild.variableNames = d.variableNames := by
  have hfit : VariablesFit (Graph.empty.clear.variableNames ++ d.variableNames) := hd.variablesFit
  exact (Graph.variableNames_addDocumentChains _ _).trans
    (Graph.variableNames_addDocumentVariables hfit)

theorem content_rebuild {d : Document} (hd : d.WellFormed) :
    d.rebuild.chains.map DocumentChain.content = d.chains.map DocumentChain.content := by
  have hvariables : (d.variableNames.foldl Graph.addDocumentVariable Graph.empty.clear).chains =
      [] :=
    Graph.chains_addDocumentVariables _ _
  have hchains :=
    Graph.content_addDocumentChains
      (g := d.variableNames.foldl Graph.addDocumentVariable Graph.empty.clear) hd.complete hd.filled
  rw [hvariables, List.map_nil, List.nil_append] at hchains
  rw [rebuild, Graph.toDocument_of_wellFormed (ofDocument_wellFormed d), List.map_map]
  exact hchains

theorem rebuild_of_wellFormed {d : Document} (hd : d.WellFormed) : d.rebuild = d.renumber :=
  (renumber_rebuild d).symm.trans (renumber_congr (content_rebuild hd) (variableNames_rebuild hd))

/-- What an editor saves comes back from a graph of its own with nothing but its chains numbered, in
every run of the editor. What comes back from any document at all comes back unchanged the next
time, ids included. A well-formed document comes back with nothing but its chains numbered. -/
theorem rebuild_keeps_program :
    (∀ config ops, (Editor.run config ops).toDocument.rebuild =
      (Editor.run config ops).toDocument.renumber) ∧
    (∀ d : Document, d.rebuild.rebuild = d.rebuild) ∧
    ∀ d : Document, d.WellFormed → d.rebuild = d.renumber := by
  refine ⟨?_, ?_, fun d hd => rebuild_of_wellFormed hd⟩
  · intro config ops
    exact rebuild_of_wellFormed (Editor.WellFormed.run config ops).graph.toDocument
  · intro d
    exact (rebuild_of_wellFormed (rebuild_wellFormed d)).trans (renumber_rebuild d)

/-- A document with a block in a slot. -/
def nestedDocument : Document where
  chains :=
    [⟨7, 10, 20,
      [⟨(), "on_start", .empty, none, none⟩,
        ⟨(), "if_cond", .ofList [("var", "x"), ("op", "=="), ("value", "0")],
          some [⟨(), "end_game", .empty, none, none⟩], none⟩]⟩]
  variableNames := ["x"]

theorem nestedDocument_wellFormed : nestedDocument.WellFormed :=
  ⟨by decide, by decide, ⟨by decide, by decide, by decide⟩⟩

theorem rebuild_nestedDocument :
    nestedDocument.WellFormed ∧ nestedDocument.rebuild = nestedDocument.renumber :=
  ⟨nestedDocument_wellFormed, rebuild_keeps_program.2.2 nestedDocument nestedDocument_wellFormed⟩

end Document

end BlockStudio
