import BlockStudio.Graph.Rebuild

/-!
Well-formed programs. A complete block has a type of the catalogue, a value for every field and
exactly the slots of its definition, at every depth; a well-formed graph has complete blocks, no
empty chain, and variables that are trimmed and told apart. Main statements: every operation of the
graph keeps it well-formed, and loading a document makes it so whatever the document is.
-/
namespace BlockStudio

namespace Block

variable {ι : Type}

mutual

/-- The block fits the catalogue, at every depth. -/
def Complete : Block ι → Prop
  | ⟨_, type, values, children, elseChildren⟩ =>
    ∃ d, definition? type = some d ∧ (∀ f ∈ d.fields, values.contains f.key = true) ∧
      CompleteSlot (1 ≤ d.shape.slotCount) children ∧
      CompleteSlot (2 ≤ d.shape.slotCount) elseChildren

/-- The slot is there if and only if it is wanted, with complete blocks. -/
def CompleteSlot (wanted : Prop) : Option (List (Block ι)) → Prop
  | none => ¬wanted
  | some bs => wanted ∧ CompleteList bs

def CompleteList : List (Block ι) → Prop
  | [] => True
  | b :: rest => b.Complete ∧ CompleteList rest

end

mutual

instance decidableComplete : (b : Block ι) → Decidable b.Complete
  | ⟨_, type, values, children, elseChildren⟩ =>
    match h : definition? type with
    | none => isFalse (by rintro ⟨d, hd, -⟩; cases h.symm.trans hd)
    | some d =>
      have := decidableCompleteSlot (1 ≤ d.shape.slotCount) children
      have := decidableCompleteSlot (2 ≤ d.shape.slotCount) elseChildren
      decidable_of_iff
        ((∀ f ∈ d.fields, values.contains f.key = true) ∧
          CompleteSlot (1 ≤ d.shape.slotCount) children ∧
          CompleteSlot (2 ≤ d.shape.slotCount) elseChildren)
        ⟨fun hfits => ⟨d, h, hfits⟩,
          by rintro ⟨d', hd', hfits⟩; cases h.symm.trans hd'; exact hfits⟩

instance decidableCompleteSlot (wanted : Prop) [Decidable wanted] :
    (s : Option (List (Block ι))) → Decidable (CompleteSlot wanted s)
  | none => inferInstanceAs (Decidable ¬wanted)
  | some bs =>
    have := decidableCompleteList bs
    inferInstanceAs (Decidable (wanted ∧ CompleteList bs))

instance decidableCompleteList : (bs : List (Block ι)) → Decidable (CompleteList bs)
  | [] => inferInstanceAs (Decidable True)
  | b :: rest =>
    have := decidableComplete b
    have := decidableCompleteList rest
    inferInstanceAs (Decidable (b.Complete ∧ CompleteList rest))

end

theorem completeList_iff {bs : List (Block ι)} : CompleteList bs ↔ ∀ b ∈ bs, b.Complete := by
  induction bs with
  | nil => simp [CompleteList]
  | cons b rest ih => simp [CompleteList, ih]

theorem completeList_append {bs cs : List (Block ι)} :
    CompleteList (bs ++ cs) ↔ CompleteList bs ∧ CompleteList cs := by
  simp only [completeList_iff, List.mem_append, or_imp, forall_and]

theorem CompleteList.take {bs : List (Block ι)} (h : CompleteList bs) (n : Nat) :
    CompleteList (bs.take n) :=
  completeList_iff.2 fun b hb => completeList_iff.1 h b (List.mem_of_mem_take hb)

theorem CompleteList.drop {bs : List (Block ι)} (h : CompleteList bs) (n : Nat) :
    CompleteList (bs.drop n) :=
  completeList_iff.2 fun b hb => completeList_iff.1 h b (List.mem_of_mem_drop hb)

theorem CompleteSlot.list {wanted : Prop} {s : Option (List (Block ι))} (h : CompleteSlot wanted s)
    {bs : List (Block ι)} (hs : s = some bs) : CompleteList bs := by
  subst hs
  exact h.2

theorem Complete.slot {b : Block ι} (h : b.Complete) {s : Slot} {bs : List (Block ι)}
    (hs : b.slot s = some bs) :
    CompleteList bs := by
  obtain ⟨id, type, values, children, elseChildren⟩ := b
  obtain ⟨d, -, -, hfirst, hsecond⟩ := h
  cases s with
  | thenSlot => exact hfirst.list hs
  | elseSlot => exact hsecond.list hs

/-- What is in the slots of a block may change, as long as it stays complete. -/
theorem CompleteSlot.map {wanted : Prop} {s : Option (List (Block ι))} (h : CompleteSlot wanted s)
    {f : List (Block ι) → List (Block ι)} (hf : ∀ bs, CompleteList bs → CompleteList (f bs)) :
    CompleteSlot wanted (s.map f) := by
  cases s with
  | none => exact h
  | some bs => exact ⟨h.1, hf bs h.2⟩

mutual

theorem complete_forget : ∀ b : Block ι, b.forget.Complete ↔ b.Complete
  | ⟨id, type, values, children, elseChildren⟩ => by
    simp only [forget, Complete, completeSlot_forget _ children, completeSlot_forget _ elseChildren]

theorem completeSlot_forget (wanted : Prop) :
    ∀ s : Option (List (Block ι)), CompleteSlot wanted (forgetSlot s) ↔ CompleteSlot wanted s
  | none => Iff.rfl
  | some bs => and_congr_right fun _ => completeList_forget bs

theorem completeList_forget : ∀ bs : List (Block ι), CompleteList (forgetList bs) ↔ CompleteList bs
  | [] => Iff.rfl
  | b :: rest => and_congr (complete_forget b) (completeList_forget rest)

end

mutual

theorem find?_complete {id : BlockId} {found : PlacedBlock} :
    ∀ {b : PlacedBlock}, b.Complete → b.find? id = some found → found.Complete
  | ⟨own, type, values, children, elseChildren⟩, hb, h => by
    rw [find?] at h
    split at h
    · cases h
      exact hb
    · obtain ⟨d, -, -, hfirst, hsecond⟩ := hb
      rcases Option.or_eq_some_iff.1 h with h | ⟨-, h⟩
      · exact findSlot?_complete hfirst h
      · exact findSlot?_complete hsecond h

theorem findSlot?_complete {id : BlockId} {found : PlacedBlock} {wanted : Prop} :
    ∀ {s : Option (List PlacedBlock)}, CompleteSlot wanted s →
      findSlot? id s = some found → found.Complete
  | none, _, h => by cases h
  | some _, hs, h => findList?_complete hs.2 h

theorem findList?_complete {id : BlockId} {found : PlacedBlock} :
    ∀ {bs : List PlacedBlock}, CompleteList bs → findList? id bs = some found → found.Complete
  | [], _, h => by cases h
  | b :: rest, hbs, h => by
    rw [findList?] at h
    rcases Option.or_eq_some_iff.1 h with h | ⟨-, h⟩
    · exact find?_complete hbs.1 h
    · exact findList?_complete hbs.2 h

end

section
variable {id : BlockId} {f : PlacedBlock → PlacedBlock}

mutual

theorem edit?_complete (hf : ∀ b, b.Complete → (f b).Complete) :
    ∀ {b b' : PlacedBlock}, b.Complete → b.edit? id f = some b' → b'.Complete
  | ⟨own, type, values, children, elseChildren⟩, b', hb, h => by
    rw [edit?] at h
    split at h
    · cases h
      exact hf _ hb
    · obtain ⟨d, htype, hvalues, hfirst, hsecond⟩ := hb
      split at h
      · rename_i children' hedit
        cases h
        exact ⟨d, htype, hvalues, editSlot?_complete hf hfirst hedit, hsecond⟩
      · obtain ⟨slot, hedit, rfl⟩ := Option.map_eq_some_iff.1 h
        exact ⟨d, htype, hvalues, hfirst, editSlot?_complete hf hsecond hedit⟩

theorem editSlot?_complete (hf : ∀ b, b.Complete → (f b).Complete) {wanted : Prop} :
    ∀ {s s' : Option (List PlacedBlock)}, CompleteSlot wanted s → editSlot? id f s = some s' →
      CompleteSlot wanted s'
  | none, _, _, h => by cases h
  | some _, _, hs, h => by
    obtain ⟨bs', hedit, rfl⟩ := Option.map_eq_some_iff.1 h
    exact ⟨hs.1, editList?_complete hf hs.2 hedit⟩

theorem editList?_complete (hf : ∀ b, b.Complete → (f b).Complete) :
    ∀ {bs bs' : List PlacedBlock}, CompleteList bs → editList? id f bs = some bs' → CompleteList bs'
  | [], _, _, h => by cases h
  | b :: rest, _, hbs, h => by
    rw [editList?] at h
    split at h
    · rename_i b' hedit
      cases h
      exact ⟨edit?_complete hf hbs.1 hedit, hbs.2⟩
    · obtain ⟨rest', hedit, rfl⟩ := Option.map_eq_some_iff.1 h
      exact ⟨hbs.1, editList?_complete hf hbs.2 hedit⟩

end

/-- An edit of a list changes one of its blocks, so it leaves no list empty. -/
theorem editList?_ne_nil {bs bs' : List PlacedBlock} (h : editList? id f bs = some bs') :
    bs' ≠ [] := by
  cases bs with
  | nil => cases h
  | cons b rest =>
    rw [editList?] at h
    split at h
    · cases h
      simp
    · obtain ⟨rest', -, rfl⟩ := Option.map_eq_some_iff.1 h
      simp

theorem mapSlot_complete {s : Slot} {f : List PlacedBlock → List PlacedBlock}
    (hf : ∀ bs, CompleteList bs → CompleteList (f bs)) {b : PlacedBlock} (hb : b.Complete) :
    (mapSlot s f b).Complete := by
  obtain ⟨id, type, values, children, elseChildren⟩ := b
  obtain ⟨d, htype, hvalues, hfirst, hsecond⟩ := hb
  cases s with
  | thenSlot => exact ⟨d, htype, hvalues, hfirst.map hf, hsecond⟩
  | elseSlot => exact ⟨d, htype, hvalues, hfirst, hsecond.map hf⟩

theorem insert_complete {b : PlacedBlock} (hb : b.Complete) (key value : String) :
    ({ b with values := b.values.insert key value } : PlacedBlock).Complete := by
  obtain ⟨id, type, values, children, elseChildren⟩ := b
  obtain ⟨d, htype, hvalues, hfirst, hsecond⟩ := hb
  refine ⟨d, htype, fun f hf => ?_, hfirst, hsecond⟩
  simp [hvalues f hf]

end

end Block

/-- Names of variables as a graph keeps them. -/
structure VariablesFit (names : List String) : Prop where
  trimmed : ∀ name ∈ names, Text.trim name = name
  named : ∀ name ∈ names, name ≠ ""
  distinct : names.Nodup

theorem VariablesFit.nil : VariablesFit [] := ⟨by simp, by simp, .nil⟩

namespace Graph

structure WellFormed (g : Graph) : Prop where
  complete : ∀ c ∈ g.chains, Block.CompleteList c.blocks
  filled : ∀ c ∈ g.chains, c.blocks ≠ []
  variablesFit : VariablesFit g.variableNames

section
variable {g g' : Graph}

theorem forall_mem_editChains {P : Chain → Prop} {id : ChainId} {f : Chain → Chain}
    (hf : ∀ c, P c → P (f c)) {cs : List Chain} (h : ∀ c ∈ cs, P c) :
    ∀ c ∈ editChains id f cs, P c := by
  induction cs with
  | nil => exact h
  | cons c rest ih =>
    obtain ⟨hc, hrest⟩ := List.forall_mem_cons.1 h
    rw [editChains]
    split
    · exact List.forall_mem_cons.2 ⟨hf c hc, hrest⟩
    · exact List.forall_mem_cons.2 ⟨hc, ih hrest⟩

theorem forall_mem_editInChains {P : Chain → Prop} {id : BlockId} {f : PlacedBlock → PlacedBlock}
    (hedit : ∀ c blocks, P c → Block.editList? id f c.blocks = some blocks → P { c with blocks })
    {cs : List Chain} (h : ∀ c ∈ cs, P c) : ∀ c ∈ editInChains id f cs, P c := by
  induction cs with
  | nil => exact h
  | cons c rest ih =>
    obtain ⟨hc, hrest⟩ := List.forall_mem_cons.1 h
    rw [editInChains]
    split
    · rename_i blocks hblocks
      exact List.forall_mem_cons.2 ⟨hedit c blocks hc hblocks, hrest⟩
    · exact List.forall_mem_cons.2 ⟨hc, ih hrest⟩

theorem filter_eq_self_of_filled {cs : List Chain} (h : ∀ c ∈ cs, c.blocks ≠ []) :
    cs.filter (fun c => !c.blocks.isEmpty) = cs := by
  rw [List.filter_eq_self]
  intro c hc
  simpa using h c hc

/-- A change of a container is a change of one chain or of one block. -/
theorem editContainer?_eq_some {c : Container} {f : List PlacedBlock → List PlacedBlock}
    (h : g.editContainer? c f = some g') :
    (∃ id, c = .chain id ∧
      g' = g.editChain id fun chain => { chain with blocks := f chain.blocks }) ∨
      ∃ owner slot, c = .slot owner slot ∧ g' = g.editBlock owner (Block.mapSlot slot f) := by
  unfold editContainer? at h
  split at h
  · cases h
  · cases c with
    | chain id => exact .inl ⟨id, rfl, (Option.some.inj h).symm⟩
    | slot owner slot => exact .inr ⟨owner, slot, rfl, (Option.some.inj h).symm⟩

theorem insert_eq_ok {c : Container} {index : Nat} {blocks : List PlacedBlock}
    (h : g.insert c index blocks = .ok g') :
    g.editContainer? c (spliceAt index blocks) = some g' := by
  unfold insert at h
  split at h
  · cases h
  · rename_i hedit
    cases h
    exact hedit

theorem declare_eq_ok {name : String} (h : g.declare name = .ok g') :
    Text.trim name ≠ "" ∧ Text.trim name ∉ g.variableNames ∧
      g' = { g with variableNames := g.variableNames ++ [Text.trim name] } := by
  simp only [declare] at h
  split at h
  · cases h
  · rename_i hempty
    split at h
    · cases h
    · rename_i hnew
      cases h
      exact ⟨by simpa using hempty, by simpa using hnew, rfl⟩

theorem complete_editBlock {id : BlockId} {f : PlacedBlock → PlacedBlock}
    (hf : ∀ b, b.Complete → (f b).Complete) (hg : ∀ c ∈ g.chains, Block.CompleteList c.blocks) :
    ∀ c ∈ (g.editBlock id f).chains, Block.CompleteList c.blocks :=
  forall_mem_editInChains (P := fun c => Block.CompleteList c.blocks)
    (fun _ _ hc hblocks => Block.editList?_complete hf hc hblocks) hg

theorem filled_editBlock {id : BlockId} {f : PlacedBlock → PlacedBlock}
    (hg : ∀ c ∈ g.chains, c.blocks ≠ []) :
    ∀ c ∈ (g.editBlock id f).chains, c.blocks ≠ [] :=
  forall_mem_editInChains (P := fun c => c.blocks ≠ [])
    (fun _ _ _ hblocks => Block.editList?_ne_nil hblocks) hg

theorem complete_editContainer? {c : Container} {f : List PlacedBlock → List PlacedBlock}
    (hf : ∀ bs, Block.CompleteList bs → Block.CompleteList (f bs))
    (h : g.editContainer? c f = some g') (hg : ∀ c ∈ g.chains, Block.CompleteList c.blocks) :
    ∀ c ∈ g'.chains, Block.CompleteList c.blocks := by
  obtain ⟨id, rfl, rfl⟩ | ⟨owner, slot, rfl, rfl⟩ := editContainer?_eq_some h
  · exact forall_mem_editChains (P := fun c => Block.CompleteList c.blocks)
      (fun c hc => hf c.blocks hc) hg
  · exact complete_editBlock (fun b hb => Block.mapSlot_complete hf hb) hg

theorem filled_editContainer? {c : Container} {f : List PlacedBlock → List PlacedBlock}
    (hf : ∀ bs, bs ≠ [] → f bs ≠ []) (h : g.editContainer? c f = some g')
    (hg : ∀ c ∈ g.chains, c.blocks ≠ []) :
    ∀ c ∈ g'.chains, c.blocks ≠ [] := by
  obtain ⟨id, rfl, rfl⟩ | ⟨owner, slot, rfl, rfl⟩ := editContainer?_eq_some h
  · exact forall_mem_editChains (P := fun c => c.blocks ≠ []) (fun c hc => hf c.blocks hc) hg
  · exact filled_editBlock hg

theorem variableNames_editContainer? {c : Container} {f : List PlacedBlock → List PlacedBlock}
    (h : g.editContainer? c f = some g') : g'.variableNames = g.variableNames := by
  obtain ⟨id, rfl, rfl⟩ | ⟨owner, slot, rfl, rfl⟩ := editContainer?_eq_some h <;> rfl

theorem WellFormed.empty : Graph.empty.WellFormed :=
  ⟨by simp [Graph.empty], by simp [Graph.empty], .nil⟩

theorem WellFormed.clear (g : Graph) : g.clear.WellFormed :=
  ⟨by simp [Graph.clear], by simp [Graph.clear], .nil⟩

namespace WellFormed

theorem addChain (hg : g.WellFormed) (position : Point) {blocks : List PlacedBlock}
    (hblocks : Block.CompleteList blocks) : (g.addChain position blocks).2.WellFormed := by
  unfold Graph.addChain
  split
  · exact hg
  · rename_i hne
    have hfilled : blocks ≠ [] := by simpa using hne
    refine ⟨?_, ?_, hg.variablesFit⟩
    · simp only [List.forall_mem_append]
      exact ⟨hg.complete, by simpa using hblocks⟩
    · simp only [List.forall_mem_append]
      exact ⟨hg.filled, by simpa using hfilled⟩

theorem editBlock (hg : g.WellFormed) (id : BlockId) {f : PlacedBlock → PlacedBlock}
    (hf : ∀ b, b.Complete → (f b).Complete) : (g.editBlock id f).WellFormed :=
  ⟨complete_editBlock hf hg.complete, filled_editBlock hg.filled, hg.variablesFit⟩

theorem editChain (hg : g.WellFormed) (id : ChainId) {f : Chain → Chain}
    (hf : ∀ c, (f c).blocks = c.blocks) :
    (g.editChain id f).WellFormed := by
  refine ⟨?_, ?_, hg.variablesFit⟩
  · exact forall_mem_editChains (P := fun c => Block.CompleteList c.blocks)
      (fun c hc => hf c ▸ hc) hg.complete
  · exact forall_mem_editChains (P := fun c => c.blocks ≠ []) (fun c hc => hf c ▸ hc) hg.filled

theorem insert (hg : g.WellFormed) {c : Container} {index : Nat} {blocks : List PlacedBlock}
    (hblocks : Block.CompleteList blocks) (h : g.insert c index blocks = .ok g') :
    g'.WellFormed := by
  have hedit := insert_eq_ok h
  have hcomplete : ∀ bs, Block.CompleteList bs → Block.CompleteList (spliceAt index blocks bs) := by
    intro bs hbs
    exact Block.completeList_append.2
      ⟨Block.completeList_append.2 ⟨hbs.take index, hblocks⟩, hbs.drop index⟩
  have hfilled : ∀ bs, bs ≠ [] → spliceAt index blocks bs ≠ [] := by
    intro bs hbs heq
    simp only [spliceAt, List.append_eq_nil_iff] at heq
    apply hbs
    rw [← List.take_append_drop index bs, heq.1.1, heq.2, List.nil_append]
  exact ⟨complete_editContainer? hcomplete hedit hg.complete,
    filled_editContainer? hfilled hedit hg.filled,
    variableNames_editContainer? hedit ▸ hg.variablesFit⟩

theorem container? (hg : g.WellFormed) {c : Container} {blocks : List PlacedBlock}
    (h : g.container? c = some blocks) : Block.CompleteList blocks := by
  cases c with
  | chain id =>
    obtain ⟨chain, hchain, rfl⟩ := Option.map_eq_some_iff.1 h
    exact hg.complete chain (List.mem_of_find?_eq_some hchain)
  | slot owner slot =>
    obtain ⟨b, hb, hslot⟩ := Option.bind_eq_some_iff.1 h
    obtain ⟨chain, hchain, hfind⟩ := List.exists_of_findSome?_eq_some hb
    exact (Block.findList?_complete (hg.complete chain hchain) hfind).slot hslot

theorem detach? (hg : g.WellFormed) {id : BlockId} {blocks : List PlacedBlock}
    (h : g.detach? id = some (blocks, g')) : Block.CompleteList blocks ∧ g'.WellFormed := by
  simp only [Graph.detach?, Option.bind_eq_bind, Option.bind_eq_some_iff, Option.some.injEq,
    Prod.mk.injEq] at h
  obtain ⟨l, -, bs, hbs, rest, hrest, rfl, rfl⟩ := h
  refine ⟨(hg.container? hbs).drop l.index, ?_, ?_,
    variableNames_editContainer? hrest ▸ hg.variablesFit⟩
  · intro c hc
    exact complete_editContainer?
      (fun bs hbs => hbs.take l.index) hrest hg.complete c (List.mem_filter.1 hc).1
  · intro c hc
    simpa using (List.mem_filter.1 hc).2

theorem newBlock (hg : g.WellFormed) {type : String} {objects names : List String} {b : PlacedBlock}
    (h : g.newBlock type objects names = .ok (b, g')) : b.Complete ∧ g'.WellFormed := by
  unfold Graph.newBlock at h
  split at h
  · cases h
  · rename_i d hd
    cases h
    refine ⟨⟨d, hd, ?_, ?_, ?_⟩, hg.complete, hg.filled, hg.variablesFit⟩
    · intro f hf
      exact Table.contains_ofList (List.mem_map_of_mem hf)
    · unfold emptySlot
      split <;> simp_all [Block.CompleteSlot, Block.CompleteList]
    · unfold emptySlot
      split <;> simp_all [Block.CompleteSlot, Block.CompleteList]

theorem declare (hg : g.WellFormed) {name : String} (h : g.declare name = .ok g') :
    g'.WellFormed := by
  obtain ⟨hempty, hnew, rfl⟩ := declare_eq_ok h
  obtain ⟨htrimmed, hnamed, hdistinct⟩ := hg.variablesFit
  refine ⟨hg.complete, hg.filled, ?_, ?_, ?_⟩
  · simp only [List.forall_mem_append]
    exact ⟨htrimmed, by simp [Text.trim_trim]⟩
  · simp only [List.forall_mem_append]
    exact ⟨hnamed, by simpa using hempty⟩
  · simp only [List.nodup_append]
    refine ⟨hdistinct, by simp, ?_⟩
    rintro other hother _ hmem rfl
    obtain rfl := List.mem_singleton.1 hmem
    exact hnew hother

theorem undeclare (hg : g.WellFormed) (name : String) : (g.undeclare name).WellFormed := by
  obtain ⟨htrimmed, hnamed, hdistinct⟩ := hg.variablesFit
  exact ⟨hg.complete, hg.filled, fun n hn => htrimmed n (List.mem_filter.1 hn).1,
    fun n hn => hnamed n (List.mem_filter.1 hn).1, hdistinct.filter _⟩

end WellFormed

end

theorem contains_withDefaults (fields : List Field) (values : Table String) (key : String) :
    (withDefaults fields values).contains key = true ↔
      key ∈ fields.map (·.key) ∨ values.contains key = true := by
  induction fields generalizing values with
  | nil => simp [withDefaults]
  | cons f rest ih =>
    rw [withDefaults, List.foldl_cons]
    refine (ih (values.insertNew f.key f.default)).trans ?_
    simp only [Table.contains_insertNew, Bool.or_eq_true, decide_eq_true_eq,
      List.map_cons, List.mem_cons]
    exact or_left_comm.trans or_assoc.symm

/-- Values that lack no field stay as they are. -/
theorem withDefaults_of_contains {fields : List Field} {values : Table String}
    (h : ∀ f ∈ fields, values.contains f.key = true) : withDefaults fields values = values := by
  induction fields with
  | nil => rfl
  | cons f rest ih =>
    obtain ⟨hf, hrest⟩ := List.forall_mem_cons.1 h
    rw [withDefaults, List.foldl_cons, Table.insertNew_of_contains _ hf]
    exact ih hrest

mutual

theorem rebuildBlock_complete (last : BlockId) :
    ∀ (b : Node) {b' : PlacedBlock}, (rebuildBlock last b).1 = some b' → b'.Complete
  | ⟨_, type, values, children, elseChildren⟩, b', h => by
    rw [rebuildBlock] at h
    split at h
    · cases h
    · rename_i d hd
      cases h
      refine ⟨d, hd, fun f hf => ?_, ?_, ?_⟩
      · exact (contains_withDefaults _ _ _).2 (.inl (List.mem_map_of_mem hf))
      · simpa using rebuildSlot_complete (1 ≤ d.shape.slotCount) last children
      · simpa using rebuildSlot_complete (2 ≤ d.shape.slotCount) _ elseChildren

theorem rebuildSlot_complete (wanted : Bool) (last : BlockId) :
    ∀ s : Option (List Node), Block.CompleteSlot (wanted = true) (rebuildSlot wanted last s).1
  | none => by cases wanted <;> simp [rebuildSlot, Block.CompleteSlot, Block.CompleteList]
  | some bs => by
    cases wanted with
    | false => simp [rebuildSlot, Block.CompleteSlot]
    | true => exact ⟨rfl, rebuildList_complete last bs⟩

theorem rebuildList_complete (last : BlockId) :
    ∀ bs : List Node, Block.CompleteList (rebuildList last bs).1
  | [] => trivial
  | b :: rest => by
    rw [rebuildList]
    refine Block.completeList_append.2 ⟨?_, rebuildList_complete _ rest⟩
    rw [Block.completeList_iff]
    intro b' hb'
    exact rebuildBlock_complete last b (Option.mem_toList.1 hb')

end

namespace WellFormed
variable {g : Graph}

theorem addDocumentVariable (hg : g.WellFormed) (name : String) :
    (g.addDocumentVariable name).WellFormed := by
  unfold Graph.addDocumentVariable
  split
  · rename_i hdeclare
    exact hg.declare hdeclare
  · exact hg

theorem addDocumentChain (hg : g.WellFormed) (c : DocumentChain) :
    (g.addDocumentChain c).WellFormed := by
  have hlast :
      ({ g with lastBlockId := (rebuildList g.lastBlockId c.blocks).2 } : Graph).WellFormed :=
    ⟨hg.complete, hg.filled, hg.variablesFit⟩
  exact hlast.addChain _ (rebuildList_complete _ _)

/-- Whatever a document holds, the graph that it is loaded into becomes well-formed. -/
theorem load (g : Graph) (d : Document) : (g.load d).WellFormed := by
  have hvariables : (d.variableNames.foldl Graph.addDocumentVariable g.clear).WellFormed :=
    List.foldlRecOn (motive := WellFormed) _ _ (.clear g) fun _ hg name _ =>
      hg.addDocumentVariable name
  exact List.foldlRecOn (motive := WellFormed) _ _ hvariables fun _ hg c _ => hg.addDocumentChain c

end WellFormed

end Graph

end BlockStudio
