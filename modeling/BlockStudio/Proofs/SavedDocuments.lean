import BlockStudio.Document.Project
import BlockStudio.Number.Counter
import BlockStudio.Proofs.Rereading

/-!
Saved documents come back. A printed text is decoded in two ways: straight from its tree, or from
the value of the text, where the members of each object stand in order of their names. A record
comes back in both ways when its parts do, from texts and numbers up to the document and the project
around it.
-/
namespace BlockStudio.Json

/-- The tree `j`, printed and read again, decodes to `a` in both ways. -/
structure ComesBack {α : Type} (decode : Json → Option α) (j : Json) (a : α) : Prop where
  legible : j.Legible
  decoded : decode j.reread = some a
  settled : decode j.reread.settle = some a

namespace ComesBack
variable {α : Type} {decode : Json → Option α}

theorem text (s : String) : ComesBack text? (.text s) s := ⟨trivial, rfl, rfl⟩

theorem number {n m : Number} {a : α} (hreads : n.ReadsAs m)
    (hdecode : decode (.number m) = some a) :
    ComesBack decode (.number n) a := by
  have hm : n.reread = m := hreads.reread_eq
  refine ⟨?_, ?_, ?_⟩
  · rwa [Legible, hm]
  all_goals
    change decode (.number n.reread) = some a
    rwa [hm]

theorem nat {n : Nat} (h : n ≤ Number.counterMax) : ComesBack nat? (.number (.nat n)) n :=
  number (Number.nat_readsAs h) rfl

/-- A list comes back when its elements do. -/
theorem list {f : α → Json} {xs : List α} (h : ∀ x ∈ xs, ComesBack decode (f x) x) :
    ComesBack (list? decode) (.array (xs.map f)) xs := by
  induction xs with
  | nil => exact ⟨trivial, rfl, rfl⟩
  | cons x xs ih =>
    have hx := h x List.mem_cons_self
    obtain ⟨hlegible, hdecoded, hsettled⟩ := ih fun y hy => h y (List.mem_cons_of_mem x hy)
    refine ⟨⟨hx.legible, hlegible⟩, ?_, ?_⟩
    · rw [reread, list?] at hdecoded ⊢
      simp only [List.map_cons, rereadElements, List.mapM_cons, hx.decoded, hdecoded]
      rfl
    · rw [reread, settle, list?] at hsettled ⊢
      simp only [List.map_cons, rereadElements, settleElements, List.mapM_cons,
        hx.settled, hsettled]
      rfl

end ComesBack

end BlockStudio.Json

namespace BlockStudio.Document
open Json BlockStudio.Number

/-! ### Blocks -/

theorem reread_valuesToJson (t : Table String) :
    (valuesToJson t).Legible ∧ (valuesToJson t).reread = valuesToJson t := by
  have hmembers : ∀ es : List (String × String), membersLegible (es.map fun e => (e.1, .text e.2)) ∧
      rereadMembers (es.map fun e => (e.1, .text e.2)) = es.map fun e => (e.1, .text e.2) := by
    intro es
    induction es with
    | nil => exact ⟨trivial, rfl⟩
    | cons e es ih => exact ⟨⟨trivial, ih.1⟩, congrArg ((e.1, Json.text e.2) :: ·) ih.2⟩
  obtain ⟨hlegible, hreread⟩ := hmembers t.entries
  exact ⟨hlegible, by rw [valuesToJson, reread, hreread]⟩

theorem settle_valuesToJson (t : Table String) : (valuesToJson t).settle = valuesToJson t := by
  have hmembers : ∀ es : List (String × String),
      settleMembers (es.map fun e => (e.1, .text e.2)) = es.map fun e => (e.1, .text e.2) := by
    intro es
    induction es with
    | nil => rfl
    | cons e es ih => exact congrArg ((e.1, Json.text e.2) :: ·) ih
  have hascending : (t.entries.map fun e => (e.1, Json.text e.2)).Pairwise fun a b => a.1 < b.1 :=
    List.pairwise_map.2 t.ascending
  rw [valuesToJson, settle, hmembers, Table.entries_ofList hascending]

theorem values?_valuesToJson (t : Table String) : values? (valuesToJson t) = some t := by
  have hmembers : ∀ es : List (String × String),
      (es.map fun e => (e.1, Json.text e.2)).mapM (fun e => (valueText? e.2).map (e.1, ·)) =
        some es := by
    intro es
    induction es with
    | nil => rfl
    | cons e es ih =>
      rw [List.map_cons, List.mapM_cons, ih]
      rfl
  rw [valuesToJson, values?, hmembers, Option.map_some, Table.ofList_entries]

/-- The members of a block as they are written, from the trees of its values and of the slots it
has. -/
def writtenMembers (type : String) (values : Json) (children elseChildren : Option Json) :
    List (String × Json) :=
  [("type", .text type), ("values", values)] ++ (children.map ("children", ·)).toList
    ++ (elseChildren.map ("else_children", ·)).toList

/-- The members of a block in order of their names. -/
def sortedMembers (type : String) (values : Json) (children elseChildren : Option Json) :
    List (String × Json) :=
  (children.map ("children", ·)).toList ++ (elseChildren.map ("else_children", ·)).toList
    ++ [("type", .text type), ("values", values)]

def slotTree (bs : List Node) : Json := .array (blocksToJson bs)

theorem blockToJson_eq (type : String) (values : Table String)
    (children elseChildren : Option (List Node)) :
    blockToJson ⟨(), type, values, children, elseChildren⟩ =
      .object (writtenMembers type (valuesToJson values) (children.map slotTree)
        (elseChildren.map slotTree)) := by
  cases children <;> cases elseChildren <;> rfl

section
variable {type : String} {values : Json} {children elseChildren : Option Json}

theorem reread_writtenMembers :
    (Json.object (writtenMembers type values children elseChildren)).reread =
    .object (writtenMembers type values.reread (children.map reread)
      (elseChildren.map reread)) := by
  cases children <;> cases elseChildren <;> rfl

theorem settle_writtenMembers :
    (Json.object (writtenMembers type values children elseChildren)).settle =
    .object (sortedMembers type values.settle (children.map settle) (elseChildren.map settle)) := by
  have hsettle : settleMembers (writtenMembers type values children elseChildren) =
      writtenMembers type values.settle (children.map settle) (elseChildren.map settle) := by
    cases children <;> cases elseChildren <;> rfl
  have hperm :
      (writtenMembers type values.settle (children.map settle) (elseChildren.map settle)).Perm
      (sortedMembers type values.settle (children.map settle) (elseChildren.map settle)) := by
    rw [writtenMembers, List.append_assoc]
    exact List.perm_append_comm
  rw [settle, hsettle]
  congr 1
  cases children <;> cases elseChildren
  · exact Table.entries_ofList_of_perm ["type", "values"] hperm rfl (by decide)
  · exact Table.entries_ofList_of_perm ["else_children", "type", "values"] hperm rfl (by decide)
  · exact Table.entries_ofList_of_perm ["children", "type", "values"] hperm rfl (by decide)
  · exact Table.entries_ofList_of_perm ["children", "else_children", "type", "values"]
      hperm rfl (by decide)

/-- A slot that is there is read as a slot, one that is not there as none. -/
theorem mapM_blockList? {slot : Option Json} {s : Option (List Node)}
    (h : slot.mapM blockList? = some s) :
    (slot = none ∧ s = none) ∨ ∃ j bs, slot = some j ∧ s = some bs ∧ slot? j = some (some bs) := by
  cases slot with
  | none => exact .inl ⟨rfl, (Option.some.inj h).symm⟩
  | some j =>
    obtain ⟨bs, hbs, rfl⟩ := Option.map_eq_some_iff.1 h
    refine .inr ⟨j, bs, rfl, rfl, ?_⟩
    cases j <;> simp_all [blockList?, slot?]

variable {table : Table String} {s t : Option (List Node)} (hvalues : values? values = some table)
  (hchildren : children.mapM blockList? = some s) (helse : elseChildren.mapM blockList? = some t)
include hvalues hchildren helse

theorem block?_writtenMembers :
    block? (.object (writtenMembers type values children elseChildren)) =
      some ⟨(), type, table, s, t⟩ := by
  obtain ⟨rfl, rfl⟩ | ⟨j, bs, rfl, rfl, hj⟩ := mapM_blockList? hchildren <;>
    obtain ⟨rfl, rfl⟩ | ⟨k, cs, rfl, rfl, hk⟩ := mapM_blockList? helse <;>
    simp [writtenMembers, block?, members?, Draft.block?, text?, *]

theorem block?_sortedMembers :
    block? (.object (sortedMembers type values children elseChildren)) =
      some ⟨(), type, table, s, t⟩ := by
  obtain ⟨rfl, rfl⟩ | ⟨j, bs, rfl, rfl, hj⟩ := mapM_blockList? hchildren <;>
    obtain ⟨rfl, rfl⟩ | ⟨k, cs, rfl, rfl, hk⟩ := mapM_blockList? helse <;>
    simp [sortedMembers, block?, members?, Draft.block?, text?, *]

end

/-- A block comes back when its slots do. -/
theorem comesBack_of_slots {type : String} {values : Table String}
    {children elseChildren : Option (List Node)}
    (hchildren : ∀ bs ∈ children, ComesBack blockList? (slotTree bs) bs)
    (helse : ∀ bs ∈ elseChildren, ComesBack blockList? (slotTree bs) bs) :
    ComesBack block? (blockToJson ⟨(), type, values, children, elseChildren⟩)
      ⟨(), type, values, children, elseChildren⟩ := by
  have hmapM : ∀ {s : Option (List Node)} {f : List Node → Json},
      (∀ bs ∈ s, blockList? (f bs) = some bs) →
      (s.map f).mapM blockList? = some s := by
    intro s f h
    cases s with
    | none => rfl
    | some bs => exact Option.map_eq_some_iff.2 ⟨bs, h bs rfl, rfl⟩
  obtain ⟨hlegible, hreread⟩ := reread_valuesToJson values
  rw [blockToJson_eq]
  refine ⟨?_, ?_, ?_⟩
  · cases children <;> cases elseChildren
    · exact ⟨trivial, hlegible, trivial⟩
    · exact ⟨trivial, hlegible, (helse _ rfl).legible, trivial⟩
    · exact ⟨trivial, hlegible, (hchildren _ rfl).legible, trivial⟩
    · exact ⟨trivial, hlegible, (hchildren _ rfl).legible, (helse _ rfl).legible, trivial⟩
  · rw [reread_writtenMembers, hreread, Option.map_map, Option.map_map]
    exact block?_writtenMembers (values?_valuesToJson values)
      (hmapM fun bs h => (hchildren bs h).decoded) (hmapM fun bs h => (helse bs h).decoded)
  · rw [reread_writtenMembers, settle_writtenMembers, hreread, settle_valuesToJson]
    simp only [Option.map_map]
    exact block?_sortedMembers (values?_valuesToJson values)
      (hmapM fun bs h => (hchildren bs h).settled) (hmapM fun bs h => (helse bs h).settled)

mutual

theorem comesBack_block : ∀ b : Node, ComesBack block? (blockToJson b) b
  | ⟨_, _, _, children, elseChildren⟩ =>
    comesBack_of_slots (comesBack_slot children) (comesBack_slot elseChildren)

theorem comesBack_slot : ∀ s : Option (List Node), ∀ bs ∈ s, ComesBack blockList? (slotTree bs) bs
  | none, _, h => by cases h
  | some bs, _, h => by
    cases h
    exact comesBack_blocks bs

theorem comesBack_blocks : ∀ bs : List Node, ComesBack blockList? (slotTree bs) bs
  | [] => ⟨trivial, rfl, rfl⟩
  | b :: bs => by
    have hb := comesBack_block b
    obtain ⟨hlegible, hdecoded, hsettled⟩ := comesBack_blocks bs
    refine ⟨⟨hb.legible, hlegible⟩, ?_, ?_⟩
    · rw [slotTree, reread, blockList?] at hdecoded ⊢
      simp only [blocksToJson, rereadElements, blocks?, hb.decoded, hdecoded,
        Option.bind_eq_bind, Option.bind_some]
    · rw [slotTree, reread, settle, blockList?] at hsettled ⊢
      simp only [blocksToJson, rereadElements, settleElements, blocks?, hb.settled, hsettled,
        Option.bind_eq_bind, Option.bind_some]

end

/-! ### Documents -/

/-- The text printed for a single is a number that reads back to the single. -/
def PrintsExactly (x : Float32) : Prop :=
  ∃ m, (Json.Number.single x).ReadsAs m ∧ single? (.number m) = some x

theorem chain?_of_fields {j i x y b : Json}
    (hj : fields? ["id", "x", "y", "blocks"] j = some ⟨false, [some i, some x, some y, some b]⟩) :
    chain? j = (do some ⟨← nat? i, ← single? x, ← single? y, ← blockList? b⟩) := by
  simp [chain?, hj, Fields.defaulted, Fields.at]

theorem printsExactly_iff (x : Float32) : PrintsExactly x ↔
    (Json.Number.single x).ReadsAs (Json.Number.single x).reread ∧
      single? (.number (Json.Number.single x).reread) = some x := by
  constructor
  · rintro ⟨m, hm, hx⟩
    rw [hm.reread_eq]
    exact ⟨hm, hx⟩
  · exact fun h => ⟨_, h⟩

instance (n m : Json.Number) : Decidable (n.ReadsAs m) := inferInstanceAs (Decidable (_ = _))

instance (x : Float32) : Decidable (PrintsExactly x) :=
  decidable_of_iff _ (printsExactly_iff x).symm

/-- The members of a chain that was printed and read, in order of their names. -/
theorem settle_chainMembers (i x y b : Json) :
    (Json.object [("id", i), ("x", x), ("y", y), ("blocks", b)]).reread.settle =
      .object [("blocks", b.reread.settle), ("id", i.reread.settle), ("x", x.reread.settle),
        ("y", y.reread.settle)] :=
  congrArg Json.object
    (Table.entries_ofList_of_perm ["blocks", "id", "x", "y"]
      (@List.perm_append_comm _ [_, _, _] [_]) rfl (by decide))

/-- A chain comes back when its position does. -/
theorem comesBack_chain {c : DocumentChain} (hid : c.id ≤ counterMax) (hx : PrintsExactly c.x)
    (hy : PrintsExactly c.y) : ComesBack chain? (chainToJson c) c := by
  obtain ⟨mx, hmx, hx⟩ := hx
  obtain ⟨my, hmy, hy⟩ := hy
  have hnat := ComesBack.nat hid
  have hsx := ComesBack.number hmx hx
  have hsy := ComesBack.number hmy hy
  have hblocks := comesBack_blocks c.blocks
  refine ⟨⟨hnat.legible, hsx.legible, hsy.legible, hblocks.legible, trivial⟩, ?_, ?_⟩
  · refine (chain?_of_fields rfl).trans ?_
    rw [hnat.decoded, hsx.decoded, hsy.decoded, ← slotTree, hblocks.decoded]
    rfl
  · rw [chainToJson, settle_chainMembers]
    refine (chain?_of_fields rfl).trans ?_
    rw [hnat.settled, hsx.settled, hsy.settled, ← slotTree, hblocks.settled]
    rfl

theorem ofJson?_of_fields {j chains names : Json}
    (hj : fields? ["chains", "variables"] j = some ⟨false, [some chains, some names]⟩) :
    ofJson? j = (do some ⟨← list? chain? chains, ← list? text? names⟩) := by
  simp [ofJson?, hj, Fields.defaulted, Fields.at]

theorem project?_of_fields {j version document : Json}
    (hj : fields? ["version", "document"] j = some ⟨false, [some version, some document]⟩) :
    project? j = (do some (← version? version, ← ofJson? document)) := by
  simp [project?, hj, Fields.required, Fields.at]

def coordinates (d : Document) : List Float32 := d.chains.flatMap fun c => [c.x, c.y]

variable {d : Document}

theorem settle_documentMembers (chains names : Json) :
    (Json.object [("chains", chains), ("variables", names)]).reread.settle =
      .object [("chains", chains.reread.settle), ("variables", names.reread.settle)] :=
  congrArg Json.object
    (Table.entries_ofList_of_perm ["chains", "variables"] (.refl _) rfl (by decide))

theorem settle_projectMembers (version document : Json) :
    (Json.object [("version", version), ("document", document)]).reread.settle =
      .object [("document", document.reread.settle), ("version", version.reread.settle)] :=
  congrArg Json.object
    (Table.entries_ofList_of_perm ["document", "version"] (.swap _ _ _) rfl (by decide))

theorem settle_toJson (d : Document) : d.toJson.reread.settle =
    .object [("chains", (Json.array (d.chains.map chainToJson)).reread.settle),
      ("variables", (Json.array (d.variableNames.map Json.text)).reread.settle)] :=
  settle_documentMembers _ _

theorem settle_toProject (d : Document) : d.toProject.reread.settle =
    .object [("document", d.toJson.reread.settle),
      ("version", (Json.number (.nat projectVersion)).reread.settle)] :=
  settle_projectMembers _ _

theorem comesBack_toJson (hids : ∀ c ∈ d.chains, c.id ≤ counterMax)
    (hexact : ∀ x ∈ d.coordinates, PrintsExactly x) :
    ComesBack ofJson? d.toJson d := by
  have hchains : ComesBack (list? chain?) (.array (d.chains.map chainToJson)) d.chains := by
    refine ComesBack.list fun c hc => comesBack_chain (hids c hc) (hexact _ ?_) (hexact _ ?_)
    · exact List.mem_flatMap.2 ⟨c, hc, by simp⟩
    · exact List.mem_flatMap.2 ⟨c, hc, by simp⟩
  have hnames : ComesBack (list? text?) (.array (d.variableNames.map Json.text)) d.variableNames :=
    ComesBack.list fun s _ => ComesBack.text s
  refine ⟨⟨hchains.legible, hnames.legible, trivial⟩, ?_, ?_⟩
  · refine (ofJson?_of_fields rfl).trans ?_
    rw [hchains.decoded, hnames.decoded]
    rfl
  · rw [settle_toJson]
    refine (ofJson?_of_fields rfl).trans ?_
    rw [hchains.settled, hnames.settled]
    rfl

theorem comesBack_toProject (hids : ∀ c ∈ d.chains, c.id ≤ counterMax)
    (hexact : ∀ x ∈ d.coordinates, PrintsExactly x) :
    ComesBack project? d.toProject (projectVersion, d) := by
  have hversion : ComesBack version? (.number (.nat projectVersion)) projectVersion :=
    ComesBack.number (Number.nat_readsAs (by decide)) rfl
  have hdocument := comesBack_toJson hids hexact
  refine ⟨⟨hversion.legible, hdocument.legible, trivial⟩, ?_, ?_⟩
  · refine (project?_of_fields rfl).trans ?_
    rw [hversion.decoded, hdocument.decoded]
    rfl
  · rw [settle_toProject]
    refine (project?_of_fields rfl).trans ?_
    rw [hversion.settled, hdocument.settled]
    rfl

/-- What is saved for a document is read as the document, from the project file and from the
document alone, whether through the value of the text or straight from its tree. -/
theorem saved_texts_read_back (d : Document) (ids : ∀ c ∈ d.chains, c.id ≤ counterMax)
    (finite : ∀ x ∈ d.coordinates, x.isFinite = true)
    (reads : ∀ x ∈ d.coordinates, x.isFinite = true → PrintsExactly x) :
    (d.toProject.depth ≤ depthLimit → ofSource d.toSource = .ok d) ∧
    (d.toJson.depth ≤ depthLimit → ofSource d.toText = .ok d ∧ ofText d.toText = .ok d) := by
  have hexact : ∀ x ∈ d.coordinates, PrintsExactly x := fun x hx => reads x hx (finite x hx)
  constructor
  · intro hdepth
    have hproject := comesBack_toProject ids hexact
    have hread := readValue?_pretty hproject.legible hdepth
    have hdecoded := hproject.settled
    rw [settle_toProject] at hread hdecoded
    simp [ofSource, toSource, hread, hdecoded, member?, Table.search]
  · intro hdepth
    have hdocument := comesBack_toJson ids hexact
    have hread := readValue?_pretty hdocument.legible hdepth
    have hdecoded := hdocument.settled
    rw [settle_toJson] at hread hdecoded
    constructor
    · simp [ofSource, toText, hread, hdecoded, member?, Table.search]
    · rw [ofText, toText, read?_pretty hdocument.legible hdepth, Option.bind_some,
        hdocument.decoded]

/-- A document with the greatest id, a negative zero, a slot that is empty and one that is absent,
and names that need escapes. -/
def awkwardDocument : Document where
  chains := [⟨0xffffffffffffffff, 0.1, -0,
    [⟨(), "on_start", .empty, none, none⟩,
     ⟨(), "if_else", .ofList [("op", "\"<\""), ("a\x08\x01", "π\n")], some [],
      some [⟨(), "wait\\", .empty, none, some []⟩]⟩]⟩]
  variableNames := ["", "\x7f\t"]

theorem saved_texts_read_back_awkwardDocument :
    ofSource awkwardDocument.toSource = .ok awkwardDocument ∧
      ofSource awkwardDocument.toText = .ok awkwardDocument ∧
      ofText awkwardDocument.toText = .ok awkwardDocument := by
  have hids : ∀ c ∈ awkwardDocument.chains, c.id ≤ counterMax := by decide
  have hfinite : ∀ x ∈ awkwardDocument.coordinates, x.isFinite = true := by decide +kernel
  have hexact : ∀ x ∈ awkwardDocument.coordinates, x.isFinite = true →
      PrintsExactly x := by decide +kernel
  obtain ⟨hproject, hdocument⟩ := saved_texts_read_back awkwardDocument hids hfinite hexact
  exact ⟨hproject (by decide), hdocument (by decide)⟩

end BlockStudio.Document
