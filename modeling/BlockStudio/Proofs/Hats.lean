import BlockStudio.Proofs.Changes

/-!
Where hat blocks stand. A hat starts a chain: no block follows into it, and it is in no slot. Main
statements: what may fill a place of a program with hats on top only are blocks without a hat, or at
the start of a chain one hat with such blocks behind it; and every run of the editor that loads only
documents with hats on top keeps all hats there.
-/
namespace BlockStudio

namespace Block
variable {ι : Type}

/-- The types of some blocks and of all blocks in them, in pre-order. -/
def types (bs : List (Block ι)) : List String := (preorderList bs).map (·.type)

def Hatless (bs : List (Block ι)) : Prop := ∀ type ∈ types bs, isHatType type = false

/-- The first block may be a hat, but none after it is one and none in a slot. -/
def HatLeads (bs : List (Block ι)) : Prop := ∀ type ∈ (types bs).tail, isHatType type = false

instance (bs : List (Block ι)) : Decidable (HatLeads bs) :=
  inferInstanceAs (Decidable (∀ type ∈ (types bs).tail, isHatType type = false))

section
variable {bs cs : List (Block ι)}

theorem types_append (bs cs : List (Block ι)) : types (bs ++ cs) = types bs ++ types cs := by
  simp [types, preorderList_append]

theorem types_cons (b : Block ι) (bs : List (Block ι)) :
    types (b :: bs) = b.type ::
      ((preorderSlot b.children ++ preorderSlot b.elseChildren).map (·.type) ++ types bs) := by
  simp [types, preorderList, preorder_eq, bare]

theorem hatless_append : Hatless (bs ++ cs) ↔ Hatless bs ∧ Hatless cs := by
  simp only [Hatless, types_append, List.forall_mem_append]

theorem Hatless.hatLeads (h : Hatless bs) : HatLeads bs :=
  fun type htype => h type (List.mem_of_mem_tail htype)

theorem hatLeads_append (hbs : bs ≠ []) : HatLeads (bs ++ cs) ↔ HatLeads bs ∧ Hatless cs := by
  cases bs with
  | nil => exact absurd rfl hbs
  | cons b rest =>
    simp only [HatLeads, Hatless, types_append, types_cons, List.cons_append, List.tail_cons,
      List.forall_mem_append, and_assoc]

theorem hatless_iff : Hatless bs ↔ bs.head?.any (·.isHat) = false ∧ HatLeads bs := by
  cases bs with
  | nil => simp [Hatless, HatLeads, types, preorderList]
  | cons b rest => simp [Hatless, HatLeads, types_cons, isHat]

end

end Block

def HatsLead (cs : List Chain) : Prop := ∀ c ∈ cs, Block.HatLeads c.blocks

namespace Place
variable {p : Place} {bs before after : List PlacedBlock}

/-- The blocks bring no hat to where none may stand. -/
def Admits : Place → List PlacedBlock → Prop
  | .chain .., bs => Block.HatLeads bs
  | .slot .., bs => Block.Hatless bs

theorem Admits.hatLeads (h : p.Admits bs) : Block.HatLeads bs := by
  cases p with
  | chain front id position back => exact h
  | slot outer front owner s back => exact h.hatLeads

theorem admits_of_hatless (h : Block.Hatless bs) : p.Admits bs := by
  cases p with
  | chain front id position back => exact h.hatLeads
  | slot outer front owner s back => exact h

theorem admits_append (hbefore : before ≠ []) :
    p.Admits (before ++ after) ↔ p.Admits before ∧ Block.Hatless after := by
  cases p with
  | chain front id position back => exact Block.hatLeads_append hbefore
  | slot outer front owner s back => exact Block.hatless_append

theorem Admits.right (h : p.Admits (before ++ after)) : p.Admits after := by
  by_cases hbefore : before = []
  · rwa [hbefore] at h
  · exact admits_of_hatless ((admits_append hbefore).1 h).2

theorem Admits.left (h : p.Admits (before ++ after)) : p.Admits before := by
  by_cases hbefore : before = []
  · exact hbefore ▸ admits_of_hatless (by simp [Block.Hatless, Block.types, Block.preorderList])
  · exact ((admits_append hbefore).1 h).1

/-- Whether a place admits blocks hangs on their types only. -/
theorem admits_congr {bs bs' : List PlacedBlock} (h : Block.types bs = Block.types bs') :
    p.Admits bs ↔ p.Admits bs' := by
  cases p <;> simp only [Admits, Block.HatLeads, Block.Hatless, h]

theorem types_setSlot (before after : List PlacedBlock) (owner : PlacedBlock) (s : Slot)
    (bs : List PlacedBlock) :
    Block.types (before ++ owner.setSlot s bs :: after) = Block.types before ++ owner.type ::
      ((owner.beforeSlot s).map (·.type) ++ Block.types bs ++
        ((owner.afterSlot s).map (·.type) ++ Block.types after)) := by
  have howner : (owner.setSlot s []).bare.type = owner.type := by cases s <;> rfl
  simp [Block.types, Block.preorderList, Block.preorder_setSlot, Block.preorderList_append, howner]

/-- What is in a slot of a block is admitted where the block is, if it has no hat. -/
theorem admits_setSlot {owner : PlacedBlock} {s : Slot} :
    p.Admits (before ++ owner.setSlot s bs :: after) ↔
      p.Admits (before ++ owner.setSlot s [] :: after) ∧ Block.Hatless bs := by
  have hnil : Block.types ([] : List PlacedBlock) = [] := rfl
  cases p with
  | chain front id position back =>
    simp only [Admits, Block.HatLeads, Block.Hatless, types_setSlot, hnil]
    cases Block.types before <;> grind
  | slot outer front owner' s' back =>
    simp only [Admits, Block.Hatless, types_setSlot, hnil]
    grind

/-- What may fill a place of a program with hats on top only. The induction is on the nesting of the
place: what fills a slot is part of what fills the outer place. -/
theorem hatsLead_fill : HatsLead (p.fill bs) ↔ HatsLead (p.fill []) ∧ p.Admits bs := by
  induction p generalizing bs with
  | chain front id position back =>
    have hnil : Block.HatLeads ([] : List PlacedBlock) := by decide
    simp only [HatsLead, fill, List.forall_mem_append, List.forall_mem_cons, Admits, hnil, true_and]
    constructor
    · rintro ⟨hfront, hbs, hback⟩
      exact ⟨⟨hfront, hback⟩, hbs⟩
    · rintro ⟨⟨hfront, hback⟩, hbs⟩
      exact ⟨hfront, hbs, hback⟩
  | slot outer front owner s back ih =>
    rw [fill, fill, ih, @ih (front ++ owner.setSlot s [] :: back), admits_setSlot,
      Admits, and_assoc]

theorem hatsLead_keep (h : HatsLead (p.fill bs)) : HatsLead (p.keep bs) := by
  cases p with
  | slot outer front owner s back => simpa [keep] using h
  | chain front id position back =>
    cases bs with
    | cons b rest => exact h
    | nil =>
      simp only [HatsLead, fill, keep, List.forall_mem_append, List.forall_mem_cons] at h ⊢
      exact ⟨h.1, h.2.2⟩

theorem hatsLead_raise {height : Float32} :
    HatsLead ((p.raise height).fill bs) ↔ HatsLead (p.fill bs) := by
  cases p with
  | slot outer front owner s back => rfl
  | chain front id position back =>
    simp only [HatsLead, raise, fill, List.forall_mem_append, List.forall_mem_cons]

end Place

section
variable {g g' : Graph} {blocks : List PlacedBlock}

/-- A lifted group has a hat at its head at most, and the hats that stay are where they were. -/
theorem Lifted.hatsLead {id : BlockId} (h : Lifted g id blocks g') (hg : HatsLead g.chains) :
    Block.HatLeads blocks ∧ HatsLead g'.chains := by
  obtain @⟨p, before, after, b, -, hp⟩ := h
  rw [hp, Place.hatsLead_fill] at hg
  exact ⟨hg.2.right.hatLeads, Place.hatsLead_keep (Place.hatsLead_fill.2 ⟨hg.1, hg.2.left⟩)⟩

/-- A dropped group leaves all hats on top: one with a hat never snaps, and nothing snaps in front
of a hat. -/
theorem Dropped.hatsLead {outcome : DropOutcome} (h : Dropped g blocks outcome g')
    (hg : HatsLead g.chains) (hblocks : Block.HatLeads blocks)
    (hheadless : ∀ t, outcome = .snapped t → blocks.head?.any (·.isHat) = false) :
    HatsLead g'.chains := by
  have hhatless : ∀ {t}, outcome = .snapped t → Block.Hatless blocks :=
    fun ht => Block.hatless_iff.2 ⟨hheadless _ ht, hblocks⟩
  cases h with
  | nowhere => exact hg
  | @after p before after b hp =>
    rw [hp, Place.hatsLead_fill] at hg
    refine Place.hatsLead_fill.2 ⟨hg.1, ?_⟩
    have hadmits := hg.2
    rw [← List.singleton_append, ← List.append_assoc, Place.admits_append (by simp)] at hadmits ⊢
    exact ⟨hadmits.1, Block.hatless_append.2 ⟨hhatless rfl, hadmits.2⟩⟩
  | @before p after b hp hb =>
    rw [hp, Place.hatsLead_fill] at hg
    refine Place.hatsLead_raise.2 (Place.hatsLead_fill.2 ⟨hg.1, Place.admits_of_hatless ?_⟩)
    exact Block.hatless_append.2 ⟨hhatless rfl,
      Block.hatless_iff.2 ⟨by simpa using hb, hg.2.hatLeads⟩⟩
  | @inside p content owner s hslot hp =>
    rw [hp, Place.hatsLead_fill] at hg
    refine Place.hatsLead_fill.2 ⟨hg.1, ?_⟩
    cases p with
    | chain front id position back => cases hslot
    | slot outer front owner s back => exact Block.hatless_append.2 ⟨hhatless rfl, hg.2⟩
  | apart position =>
    simp only [HatsLead, List.forall_mem_append, List.forall_mem_singleton]
    exact ⟨hg, hblocks⟩

/-- In a program with hats on top, a hat is the first block of a chain. -/
theorem HatsLead.of_hat (hg : HatsLead g.chains) {p : Place}
    {before after : List PlacedBlock} {b : PlacedBlock}
    (hp : g.chains = p.fill (before ++ b :: after)) (hb : b.isHat = true) :
    before = [] ∧ ∃ id, p.container = .chain id := by
  rw [hp, Place.hatsLead_fill] at hg
  have hnot : ¬Block.Hatless (b :: after) := by
    intro hhatless
    have hhead := (Block.hatless_iff.1 hhatless).1
    simp [hb] at hhead
  cases p with
  | slot outer front owner s back => exact absurd (Block.hatless_append.1 hg.2).2 hnot
  | chain front id position back =>
    refine ⟨?_, id, rfl⟩
    by_cases hbefore : before = []
    · exact hbefore
    · exact absurd ((Place.admits_append hbefore).1 hg.2).2 hnot

end

def Document.HatsLead (d : Document) : Prop := ∀ c ∈ d.chains, Block.HatLeads c.blocks

instance (d : Document) : Decidable d.HatsLead :=
  inferInstanceAs (Decidable (∀ c ∈ d.chains, Block.HatLeads c.blocks))

namespace Graph

mutual

/-- Rebuilding drops blocks and puts none anywhere else. -/
theorem types_rebuildBlock (last : BlockId) :
    ∀ b : Node, (Block.types (rebuildBlock last b).1.toList).Sublist (b.preorder.map (·.type))
  | ⟨_, type, values, children, elseChildren⟩ => by
    rw [rebuildBlock]
    cases hd : definition? type with
    | none => exact List.nil_sublist _
    | some d =>
      have hfirst := types_rebuildSlot (1 ≤ d.shape.slotCount) last children
      have hsecond := types_rebuildSlot (2 ≤ d.shape.slotCount)
        (rebuildSlot (1 ≤ d.shape.slotCount) last children).2 elseChildren
      simpa [Block.types, Block.preorderList, Block.preorder, Block.bare] using
        hfirst.append hsecond

theorem types_rebuildSlot (wanted : Bool) (last : BlockId) : ∀ s : Option (List Node),
    ((Block.preorderSlot (rebuildSlot wanted last s).1).map (·.type)).Sublist
      ((Block.preorderSlot s).map (·.type))
  | none => by cases wanted <;> exact List.nil_sublist _
  | some bs => by
    cases wanted with
    | false => exact List.nil_sublist _
    | true => exact types_rebuildList last bs

theorem types_rebuildList (last : BlockId) :
    ∀ bs : List Node, (Block.types (rebuildList last bs).1).Sublist (Block.types bs)
  | [] => List.nil_sublist _
  | b :: rest => by
    have hb := types_rebuildBlock last b
    have hrest := types_rebuildList (rebuildBlock last b).2 rest
    rw [rebuildList, Block.types_append, Block.types, Block.types, Block.types,
      Block.preorderList, List.map_append]
    exact hb.append hrest

end

variable {g : Graph}

theorem hatsLead_addDocumentChain (hg : HatsLead g.chains) {c : DocumentChain}
    (hc : Block.HatLeads c.blocks) :
    HatsLead (g.addDocumentChain c).chains := by
  have hblocks : Block.HatLeads (rebuildList g.lastBlockId c.blocks).1 :=
    fun type htype => hc type ((types_rebuildList _ c.blocks).tail.subset htype)
  simp only [addDocumentChain, addChain]
  split
  · exact hg
  · simp only [HatsLead, List.forall_mem_append, List.forall_mem_singleton]
    exact ⟨hg, hblocks⟩

theorem hatsLead_load {d : Document} (hd : d.HatsLead) : HatsLead (g.load d).chains := by
  obtain ⟨names, hnames⟩ := addDocumentVariables_eq g.clear d.variableNames
  rw [load, hnames]
  refine List.foldlRecOn (motive := fun g' : Graph => HatsLead g'.chains) _ _ ?_ ?_
  · simp [HatsLead, clear]
  · intro g' hg' c hc
    exact hatsLead_addDocumentChain hg' (hd c hc)

end Graph

namespace Editor
variable {e e' : Editor}

/-- No block of the program but the first of a chain is a hat, and none of the drag but its
first. -/
structure HatsLead (e : Editor) : Prop where
  chains : BlockStudio.HatsLead e.graph.chains
  dragged : ∀ blocks, e.dragged? = some blocks → Block.HatLeads blocks

/-- A change keeps hats on top, unless it loads a document with hats elsewhere. -/
theorem HatsLead.change (he : e.HatsLead) {loaded : Option Document} {new : List BlockId}
    (h : Change e loaded new e') (hloaded : ∀ d, loaded = some d → d.HatsLead) : e'.HatsLead := by
  cases h with
  | kept hchains hblock hchain hdragged => exact ⟨hchains ▸ he.chains, hdragged ▸ he.dragged⟩
  | @created _ b hfree hlone hid hgraph hdragged =>
    refine ⟨by rw [hgraph]; exact he.chains, ?_⟩
    rw [hdragged]
    rintro _ ⟨⟩
    simp [Block.HatLeads, Block.types, Block.preorderList, hlone]
  | lifted hfree hlifted hdragged =>
    obtain ⟨hblocks, hchains⟩ := hlifted.hatsLead he.chains
    refine ⟨hchains, ?_⟩
    rw [hdragged]
    rintro _ ⟨⟩
    exact hblocks
  | dropped hdragged hdropped hheadless hfree =>
    exact ⟨hdropped.hatsLead he.chains (he.dragged _ hdragged) hheadless, by simp [hfree]⟩
  | @edited _ p before after b values hp hgraph hdragged =>
    refine ⟨?_, hdragged ▸ he.dragged⟩
    have hchains := he.chains
    have htypes : Block.types (before ++ { b with values } :: after) =
        Block.types (before ++ b :: after) := by
      simp only [Block.types_append, Block.types_cons]
    rw [hp, Place.hatsLead_fill] at hchains
    rw [hgraph]
    exact Place.hatsLead_fill.2 ⟨hchains.1, (Place.admits_congr htypes).2 hchains.2⟩
  | loaded hgraph hfree => exact ⟨hgraph ▸ Graph.hatsLead_load (hloaded _ rfl), by simp [hfree]⟩
  | cleared hgraph hfree =>
    exact ⟨by simp [hgraph, BlockStudio.HatsLead, Graph.clear], by simp [hfree]⟩

/-- In every run that loads only documents with hats on top, and whose counters have not run out, no
block but the first of a chain is a hat, at any depth, and none of the drag but its first: wherever
a hat stands, that is the top of a chain. -/
theorem run_keeps_hats_on_top (config : EditorConfig) (ops : List Operation)
    (hdocuments : ∀ d, .load d ∈ ops → d.HatsLead) (h : (run config ops).graph.Unsaturated) :
    (run config ops).HatsLead ∧
    ∀ p before b after, (run config ops).graph.chains = Place.fill p (before ++ b :: after) →
      b.isHat = true →
      before = [] ∧ ∃ id, p.container = .chain id := by
  have hempty : (ofConfig config).HatsLead :=
    ⟨by simp [BlockStudio.HatsLead, ofConfig, Graph.empty], by simp [dragged?, ofConfig]⟩
  have hrun :=
    run_change_induction h hempty fun e op hop _ he hchange => he.change hchange fun d hd => by
    cases op <;> simp only [Operation.document?, reduceCtorEq, Option.some.injEq] at hd
    exact hdocuments d (hd ▸ hop)
  exact ⟨hrun.2, fun p before b after hp hb => hrun.2.chains.of_hat hp hb⟩

/-- A block is put on the canvas, and a chain with a hat is picked up and dropped right above it. -/
def stacking : List Operation :=
  [.load Document.nestedDocument, .beginDrag (.palette "end_game") ⟨10, 1066⟩, .endDrag ⟨600, 300⟩,
    .beginDrag (.placed 1) ⟨270, 40⟩, .endDrag ⟨630, 196⟩]

theorem run_stacking_keeps_hats_on_top :
    (∀ d, .load d ∈ stacking → d.HatsLead) ∧ (run .standard stacking).graph.Unsaturated ∧
    (run .standard stacking).HatsLead ∧ (run .standard stacking).graph.chainIds = [2, 3] ∧
    ∃ c ∈ (run .standard stacking).graph.chains, c.blocks.head?.any (·.isHat) = true := by
  have hdocuments : ∀ d, .load d ∈ stacking → d.HatsLead := by
    intro d hd
    obtain rfl : d = Document.nestedDocument := by simpa [stacking] using hd
    decide
  have hunsaturated : (run .standard stacking).graph.Unsaturated :=
    unsaturated_run .standard (by decide) (by decide)
  obtain ⟨hhats, -⟩ := run_keeps_hats_on_top .standard stacking hdocuments hunsaturated
  exact ⟨hdocuments, hunsaturated, hhats, by decide +kernel, by decide +kernel⟩

end Editor

end BlockStudio
