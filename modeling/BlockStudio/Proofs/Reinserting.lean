import BlockStudio.Proofs.Moves

/-!
Taking blocks out of a program and putting them in are inverse to each other. Both work on the
container of one place, and what fills the other places stays. Main statement: where ids tell blocks
and chains apart and no chain is empty, blocks that are put back where they were taken out give the
program as it was, and taking out what was put in takes out no more than that and what followed it.
-/
namespace BlockStudio

/-- The start of a chain. What is taken out there is the whole chain. -/
def Location.IsHead (l : Location) (id : ChainId) : Prop := l = ⟨.chain id, 0⟩

namespace Place
variable {p : Place} {before after : List PlacedBlock}

/-- A place stays when it is cut down, unless it is a chain and nothing is left of it. -/
theorem keep_eq_fill (h : ∀ id, ¬(⟨p.container, before.length⟩ : Location).IsHead id) :
    p.keep before = p.fill before := by
  cases p with
  | slot outer front owner s back => simp [keep]
  | chain front id position back =>
    cases before with
    | nil => exact absurd rfl (h id)
    | cons b rest => rfl

end Place

namespace Graph
variable {g : Graph} {p : Place} {before after content content' : List PlacedBlock}

theorem Distinct.exists_place_of_container? (hg : g.Distinct) {c : Container}
    (h : g.container? c = some content) :
    ∃ p, Place.container p = c ∧ g.chains = p.fill content := by
  cases c with
  | chain id =>
    obtain ⟨chain, hfind, rfl⟩ := Option.map_eq_some_iff.1 h
    obtain ⟨hid, front, back, hchains, -⟩ := List.find?_eq_some_iff_append.1 hfind
    obtain rfl : chain.id = id := by simpa using hid
    exact ⟨.chain front chain.id chain.position back, rfl, hchains⟩
  | slot owner s =>
    obtain ⟨b, hfind, hslot⟩ := Option.bind_eq_some_iff.1 h
    obtain ⟨rfl, p, before, after, hp⟩ := hg.exists_place_of_find? hfind
    refine ⟨.slot p before b s after, rfl, ?_⟩
    rw [Place.fill, Block.setSlot_of_slot hslot, hp]

/-- Filling a place anew keeps the ids distinct, when the new blocks have ids of their own or of the
old ones. -/
theorem Distinct.refill (hg : g.Distinct) (hp : g.chains = p.fill content)
    (hnodup : (Block.ids content').Nodup)
    (hnew : ∀ id ∈ Block.ids content', id ∈ g.ids → id ∈ Block.ids content) :
    ({ g with chains := p.fill content' } : Graph).Distinct := by
  obtain ⟨hblocks, hchains⟩ := hg
  rw [chainIds, hp, p.chainIds_fill content content'] at hchains
  refine ⟨?_, hchains⟩
  have hids := ids_eq_of_fill hp
  rw [hids] at hblocks
  rw [hids] at hnew
  rw [ids_eq_of_fill (g := { g with chains := p.fill content' }) rfl]
  simp only [List.nodup_append, List.mem_append] at hblocks hnew ⊢
  grind

theorem Distinct.nodup_ids (hg : g.Distinct) (hp : g.chains = p.fill content) :
    (Block.ids content).Nodup := by
  have hblocks := hg.blocks
  rw [ids_eq_of_fill hp] at hblocks
  exact (List.nodup_append.1 (List.nodup_append.1 hblocks).2.1).1

theorem spliceAt_length (before after blocks : List PlacedBlock) :
    spliceAt before.length blocks (before ++ after) = before ++ blocks ++ after := by
  simp [spliceAt]

/-- Blocks put back behind those that were left of their container give the program as it was. -/
theorem Distinct.insert_keep (hg : g.Distinct) (hp : g.chains = p.fill (before ++ after))
    (hhead : ∀ id, ¬(⟨p.container, before.length⟩ : Location).IsHead id) :
    ({ g with chains := p.keep before } : Graph).insert p.container before.length after =
      .ok g := by
  have hids : (Block.ids before).Nodup := by
    have hall := hg.nodup_ids hp
    rw [Block.ids_append] at hall
    exact (List.nodup_append.1 hall).1
  have hcut : ({ g with chains := p.fill before } : Graph).Distinct :=
    hg.refill hp hids fun id hid _ => by simp [Block.ids_append, hid]
  rw [Place.keep_eq_fill hhead, hcut.insert_fill rfl]
  have hsplice := spliceAt_length before [] after
  simp only [List.append_nil] at hsplice
  rw [hsplice, ← hp]

/-- Cutting a chain down to nothing deletes it and no other chain. -/
theorem Distinct.keep_of_isHead (hg : g.Distinct)
    (hp : g.chains = p.fill (before ++ after)) {id : ChainId}
    (hhead : (⟨p.container, before.length⟩ : Location).IsHead id) :
    p.keep before = g.chains.filter (·.id ≠ id) := by
  simp only [Location.IsHead, Location.mk.injEq, List.length_eq_zero_iff] at hhead
  obtain ⟨hcontainer, rfl⟩ := hhead
  cases p with
  | slot outer front owner s back => cases hcontainer
  | chain front own position back =>
    obtain rfl : own = id := by simpa [Place.container] using hcontainer
    have hnodup := hg.chains
    rw [chainIds, hp, Place.fill, List.map_append, List.map_cons, List.nodup_middle,
      List.nodup_cons] at hnodup
    rw [← List.map_append] at hnodup
    have hothers : ∀ c ∈ front ++ back, c.id ≠ own :=
      fun c hc heq => hnodup.1 (List.mem_map.2 ⟨c, hc, heq⟩)
    rw [hp, Place.fill, List.filter_append, List.filter_cons_of_neg (by simp), ← List.filter_append]
    exact (List.filter_eq_self.2 fun c hc => by simpa using hothers c hc).symm

/-- Fresh blocks among those at a place leave the ids distinct. -/
theorem Distinct.fill_between (hg : g.Distinct) (hp : g.chains = p.fill (before ++ after))
    {blocks : List PlacedBlock} (hnodup : (Block.ids blocks).Nodup)
    (hfresh : ∀ id ∈ Block.ids blocks, id ∉ g.ids) :
    ({ g with chains := p.fill (before ++ blocks ++ after) } : Graph).Distinct := by
  have hown : ∀ id ∈ Block.ids (before ++ after), id ∈ g.ids := by
    intro id hid
    rw [ids_eq_of_fill hp]
    simp [hid]
  have hold := hg.nodup_ids hp
  refine hg.refill hp ?_ ?_
  · simp only [Block.ids_append, List.nodup_append, List.mem_append] at hold hown ⊢
    grind
  · simp only [Block.ids_append, List.mem_append]
    grind

/-- What has been taken out at a location, and what is left: all else, but for a chain taken out as
a whole. -/
structure CutAt (g : Graph) (l : Location) (id : BlockId) (blocks : List PlacedBlock)
    (g' : Graph) : Prop where
  detach? : g.detach? id = some (blocks, g')
  lifted : Lifted g id blocks g'
  deleted : ∀ c, l.IsHead c → g' = { g with chains := g.chains.filter (·.id ≠ c) }

theorem Distinct.cutAt (hg : g.Distinct) (hfilled : ∀ c ∈ g.chains, c.blocks ≠ []) {b : PlacedBlock}
    (hp : g.chains = p.fill (before ++ b :: after)) :
    g.CutAt ⟨p.container, before.length⟩ b.id (b :: after) { g with chains := p.keep before } where
  detach? := hg.detach?_fill hfilled hp
  lifted := .intro rfl hp
  deleted _ hhead := by rw [hg.keep_of_isHead hp hhead]

end Graph

/-- Detaching and inserting are inverse to each other. A located block is detached with all that
follows it and nothing else, and inserting these where they were gives the program back. Inserted
blocks are detached with what followed the index, and inserting the latter again gives the program
back. Only a chain detached as a whole is gone. -/
theorem detach_insert_inverse {g : Graph} (hg : g.Distinct)
    (hfilled : ∀ c ∈ g.chains, c.blocks ≠ []) :
    (∀ id l, g.locate? id = some l → ∃ content g', g.container? l.container = some content ∧
      l.index < content.length ∧ g.CutAt l id (content.drop l.index) g' ∧
        ((∀ c, ¬l.IsHead c) → g'.insert l.container l.index (content.drop l.index) = .ok g)) ∧
    ∀ l content b rest, g.container? l.container = some content → l.index ≤ content.length →
      (Block.ids (b :: rest)).Nodup → (∀ id ∈ Block.ids (b :: rest), id ∉ g.ids) →
        ∃ inserted g', g.insert l.container l.index (b :: rest) = .ok inserted ∧
          inserted.CutAt l b.id (b :: rest ++ content.drop l.index) g' ∧
            ((∀ c, ¬l.IsHead c) →
              g'.insert l.container l.index (content.drop l.index) = .ok g) := by
  constructor
  · intro id l hlocate
    obtain ⟨p, before, b, after, hp, rfl, rfl⟩ := Graph.exists_place_of_locate? hlocate
    have hdrop : (before ++ b :: after).drop before.length = b :: after := List.drop_left
    refine ⟨before ++ b :: after, { g with chains := p.keep before },
      hg.container?_fill hp, by simp, ?_⟩
    rw [hdrop]
    exact ⟨hg.cutAt hfilled hp, hg.insert_keep hp⟩
  · rintro ⟨c, index⟩ content b rest hcontainer hindex hnodup hfresh
    obtain ⟨p, rfl, hp⟩ := hg.exists_place_of_container? hcontainer
    obtain ⟨before, after, rfl, rfl⟩ : ∃ before after, content = before ++ after ∧
        index = before.length :=
      ⟨content.take index, content.drop index, (List.take_append_drop index content).symm,
        (List.length_take_of_le hindex).symm⟩
    have hdrop : (before ++ after).drop before.length = after := List.drop_left
    have hsame : before ++ b :: rest ++ after = before ++ b :: (rest ++ after) := by simp
    have hinserted := hg.fill_between hp hnodup hfresh
    have hfilled' : ∀ c ∈ p.fill (before ++ b :: rest ++ after), c.blocks ≠ [] :=
      Place.filled_fill (p := p) (hp ▸ hfilled) (by simp)
    refine ⟨{ g with chains := p.fill (before ++ b :: rest ++ after) },
      { g with chains := p.keep before }, ?_, ?_⟩
    · rw [hg.insert_fill hp, Graph.spliceAt_length]
    · rw [hdrop]
      exact ⟨hinserted.cutAt hfilled' (congrArg p.fill hsame), hg.insert_keep hp⟩

/-- The loop in a slot of the branch is taken out and put back; the branch takes the whole chain
with it; and a block put in front of the loop comes out with it. -/
theorem detach_insert_inverse_branchingGraph :
    branchingGraph.Distinct ∧ (∀ c ∈ branchingGraph.chains, c.blocks ≠ []) ∧
    (∃ blocks g', branchingGraph.CutAt ⟨.slot 2 .thenSlot, 1⟩ 4 blocks g' ∧
      Block.ids blocks = [4, 5] ∧
      g'.insert (.slot 2 .thenSlot) 1 blocks = .ok branchingGraph) ∧
    (∃ blocks, branchingGraph.CutAt ⟨.chain 2, 0⟩ 7 blocks
      { branchingGraph with chains := branchingGraph.chains.take 1 }) ∧
    ∃ inserted blocks g',
    branchingGraph.insert (.slot 2 .thenSlot) 1 [⟨8, "wait", .empty, none, none⟩] = .ok inserted ∧
      inserted.CutAt ⟨.slot 2 .thenSlot, 1⟩ 8 blocks g' ∧ Block.ids blocks = [8, 4, 5] ∧
      g'.insert (.slot 2 .thenSlot) 1 (blocks.drop 1) = .ok branchingGraph := by
  have hfilled : ∀ c ∈ branchingGraph.chains, c.blocks ≠ [] := by simp [branchingGraph]
  obtain ⟨hdetach, hinsert⟩ := detach_insert_inverse distinct_branchingGraph hfilled
  have hslot : ∀ c, ¬(⟨.slot 2 .thenSlot, 1⟩ : Location).IsHead c := by simp [Location.IsHead]
  refine ⟨distinct_branchingGraph, hfilled, ?_, ?_, ?_⟩
  · obtain ⟨content, g', hcontent, -, hcut, hback⟩ := hdetach 4 ⟨.slot 2 .thenSlot, 1⟩ (by decide)
    obtain rfl := Option.some.inj hcontent
    exact ⟨_, g', hcut, by decide, hback hslot⟩
  · obtain ⟨content, g', hcontent, -, hcut, -⟩ := hdetach 7 ⟨.chain 2, 0⟩ (by decide)
    obtain rfl := hcut.deleted 2 rfl
    exact ⟨_, hcut⟩
  · obtain ⟨inserted, g', hok, hcut, hback⟩ :=
      hinsert ⟨.slot 2 .thenSlot, 1⟩ _ ⟨8, "wait", .empty, none, none⟩ [] rfl
      (by decide) (by decide) (by decide)
    exact ⟨inserted, _, g', hok, hcut, by decide, hback hslot⟩

end BlockStudio
