import BlockStudio.Proofs.Inlining
import BlockStudio.Proofs.RoundTrip

/-!
Defaults of fields. A graph gives each block the defaults of the fields that the document leaves
out, and a script reads a field without value as empty. Main statement: a document compiles to the
same handlers before and after a graph just if its compiled blocks spell out each field whose
default reads unlike an empty value.
-/
namespace BlockStudio

/-- The default reads as a field without value does. -/
def Field.isTacit (f : Field) : Bool := f.default == "" || (f.kind == .number && f.default == "0")

/-- There is a value for each field whose default reads unlike an empty value. -/
def SpellsOut (fields : List Field) (values : Table String) : Prop :=
  ∀ f ∈ fields, f.isTacit = true ∨ values.contains f.key = true

theorem Table.get?_insertNew {α : Type} (t : Table α) (key k : String) (value : α) :
    (t.insertNew key value).get? k = if k = key then some ((t.get? key).getD value)
      else t.get? k := by
  unfold insertNew
  split
  · rename_i hkey
    obtain ⟨v, hv⟩ := Option.isSome_iff_exists.mp hkey
    split
    · rename_i hk
      rw [hk, hv, Option.getD_some]
    · rfl
  · rename_i hkey
    rw [get?_insert, Option.not_isSome_iff_eq_none.mp hkey, Option.getD_none]

namespace Graph

theorem get?_withDefaults_of_notMem {fields : List Field} {key : String}
    (h : key ∉ fields.map (·.key)) (values : Table String) :
    (withDefaults fields values).get? key = values.get? key := by
  induction fields generalizing values with
  | nil => rfl
  | cons f fields ih =>
    rw [List.map_cons, List.mem_cons, not_or] at h
    rw [withDefaults, List.foldl_cons, ← withDefaults, ih h.2, Table.get?_insertNew, if_neg h.1]

/-- A field has its value, or else its default. -/
theorem get?_withDefaults {fields : List Field} (hkeys : (fields.map (·.key)).Nodup)
    {f : Field} (hf : f ∈ fields) (values : Table String) :
    (withDefaults fields values).get? f.key = some ((values.get? f.key).getD f.default) := by
  induction fields generalizing values with
  | nil => contradiction
  | cons g fields ih =>
    rw [List.map_cons, List.nodup_cons] at hkeys
    rw [withDefaults, List.foldl_cons, ← withDefaults]
    rcases List.mem_cons.mp hf with rfl | hmem
    · rw [get?_withDefaults_of_notMem hkeys.1, Table.get?_insertNew, if_pos rfl]
    · have hne : f.key ≠ g.key := fun heq => hkeys.1 (heq ▸ List.mem_map_of_mem hmem)
      rw [ih hkeys.2 hmem, Table.get?_insertNew, if_neg hne]

end Graph

namespace Script

/-- What a script takes from the value of a field. -/
inductive Reading where
  | number (x : Float)
  | count (n : Nat)
  | text (s : String)
  | comparison (c : Option Comparison)
deriving DecidableEq

/-- The number that a value reads as. -/
def numberOf (s : String) : Float :=
  ((Number.readDouble? (Text.trim s)).filter Float.isFinite).getD 0

/-- How blocks of a kind read the values of their fields. -/
def readingOf (k : BlockKind) (key value : String) : Reading :=
  match k, key with
  | .onKey, _ => .text (Key.normalize value)
  | .onTimer, _ => .number (positivePart (numberOf value))
  | .wait, _ => .number (positivePart (numberOf value))
  | .repeatN, _ => .count (Number.toNatSaturating (positivePart (numberOf value)))
  | _, "text" => .text value
  | _, "op" => .comparison (Comparison.read? value)
  | _, "object" => .text (Text.trim value)
  | _, "var" => .text (Text.trim value)
  | _, "name" => .text (Text.trim value)
  | _, "color" => .text (Text.trim value)
  | _, _ => .number (numberOf value)

section
variable {ι ι' : Type}

/-- Two blocks of a kind are read the same. -/
def ReadsAs (k : BlockKind) (b : Block ι) (b' : Block ι') : Prop :=
  ∀ f ∈ k.definition.fields, readingOf k f.key (b'.value f.key) = readingOf k f.key (b.value f.key)

/-- A default reads as an empty value just if it is tacit. -/
theorem readingOf_default_iff {k : BlockKind} {f : Field} (hf : f ∈ k.definition.fields) :
    readingOf k f.key f.default = readingOf k f.key "" ↔ f.isTacit = true := by
  have hall : ∀ f ∈ k.definition.fields, readingOf k f.key f.default = readingOf k f.key "" ↔
      f.isTacit = true := by
    cases k <;> decide +kernel
  exact hall f hf

/-- The action of a block says how its fields are read and what is in its slots. -/
theorem actionOf?_eq_iff {k : BlockKind} (hk : k.definition.shape.isHat = false)
    (b : Block ι) (b' : Block ι') (body body' otherwise otherwise' : List Action) :
    actionOf? b' body' otherwise' k.name = actionOf? b body otherwise k.name ↔
      ReadsAs k b b' ∧ (1 ≤ k.definition.shape.slotCount → body' = body) ∧
        (2 ≤ k.definition.shape.slotCount → otherwise' = otherwise) := by
  cases k <;> first
    | contradiction
    | simp [BlockKind.name, actionOf?, effectOf?, ReadsAs, readingOf, BlockKind.definition,
        BlockKind.comparison, Shape.slotCount, Field.objectId, Field.number, Field.variableName,
        Field.text, Field.color, Field.dropdown, nameIn, number, numberOf, conditionOf, and_assoc]

theorem ofType?_eq_iff {k : BlockKind} (hk : k.definition.shape.isHat = true)
    (b : Block ι) (b' : Block ι') :
    Trigger.ofType? b' k.name = Trigger.ofType? b k.name ↔ ReadsAs k b b' := by
  cases k <;> first
    | contradiction
    | simp [BlockKind.name, Trigger.ofType?, ReadsAs, readingOf, BlockKind.definition,
        Field.objectId, Field.number, Field.variableName, Field.text, Field.dropdown,
        nameIn, number, numberOf]

theorem isSome_actionOf? (k : BlockKind) (b : Block ι) (body otherwise : List Action) :
    (actionOf? b body otherwise k.name).isSome = !k.definition.shape.isHat := by
  cases k <;> rfl

theorem isSome_ofType? (k : BlockKind) (b : Block ι) :
    (Trigger.ofType? b k.name).isSome = k.definition.shape.isHat := by
  cases k <;> rfl

/-- A hat has no action. -/
theorem actionOf?_of_isHat {k : BlockKind} (hk : k.definition.shape.isHat = true) (b : Block ι)
    (body otherwise : List Action) : actionOf? b body otherwise k.name = none := by
  rw [← Option.not_isSome_iff_eq_none, isSome_actionOf?, hk]
  exact Bool.noConfusion

/-- Only a hat has a trigger. -/
theorem ofType?_of_not_isHat {k : BlockKind} (hk : k.definition.shape.isHat = false) (b : Block ι) :
    Trigger.ofType? b k.name = none := by
  rw [← Option.not_isSome_iff_eq_none, isSome_ofType?, hk]
  exact Bool.noConfusion

/-- The trigger of a hat reads its values only. -/
theorem ofBlock?_of_values {b : Block ι} {b' : Block ι'} (htype : b'.type = b.type)
    (h : b'.values = b.values) : Trigger.ofBlock? b' = Trigger.ofBlock? b := by
  simp only [Trigger.ofBlock?, Trigger.ofType?, htype, number_of_values h, nameIn_of_values h,
    value_of_values h]

/-- With the defaults filled in a block reads as before just if it spells out its fields. -/
theorem readsAs_withDefaults_iff {k : BlockKind} {b : Block ι} {b' : Block ι'}
    (hvalues : b'.values = Graph.withDefaults k.definition.fields b.values) :
    ReadsAs k b b' ↔ SpellsOut k.definition.fields b.values := by
  have hkeys : (k.definition.fields.map (·.key)).Nodup := by cases k <;> decide
  refine forall₂_congr fun f hf => ?_
  rw [← readingOf_default_iff hf, Block.value, Block.value, hvalues,
    Graph.get?_withDefaults hkeys hf, Table.contains]
  cases b.values.get? f.key <;> simp

end

end Script

namespace Block

mutual

/-- The type of the block is in the catalogue, and so are those of the blocks in its slots. -/
def Known : Node → Prop
  | ⟨_, type, _, children, elseChildren⟩ =>
    (BlockKind.ofName? type).isSome = true ∧ KnownSlot children ∧ KnownSlot elseChildren

def KnownSlot : Option (List Node) → Prop
  | none => True
  | some bs => KnownList bs

def KnownList : List Node → Prop
  | [] => True
  | b :: rest => b.Known ∧ KnownList rest

end

theorem Known.exists_kind {b : Node} (h : b.Known) : ∃ k, BlockKind.ofName? b.type = some k := by
  cases b
  exact Option.isSome_iff_exists.mp h.1

mutual

/-- A block that stands for an action spells out its fields, and so do the blocks in its slots. -/
def Explicit : Node → Prop
  | ⟨_, type, values, children, elseChildren⟩ =>
    ∀ k, BlockKind.ofName? type = some k → k.definition.shape.isHat = false →
      SpellsOut k.definition.fields values ∧
      (1 ≤ k.definition.shape.slotCount → ExplicitSlot children) ∧
        (2 ≤ k.definition.shape.slotCount → ExplicitSlot elseChildren)

def ExplicitSlot : Option (List Node) → Prop
  | none => True
  | some bs => ExplicitList bs

def ExplicitList : List Node → Prop
  | [] => True
  | b :: rest => b.Explicit ∧ ExplicitList rest

end

end Block

namespace Script
open BlockStudio.Graph

theorem toList_append_inj {α : Type} {a a' : Option α} {l l' : List α} (h : a'.isSome = a.isSome) :
    a'.toList ++ l' = a.toList ++ l ↔ a' = a ∧ l' = l := by
  cases a <;> cases a' <;> simp_all

mutual

/-- A block that is rebuilt compiles to the same action just if it is explicit. -/
theorem compileBlock?_rebuild (last : BlockId) : ∀ {b : Node}, b.Known →
    ∃ b', (rebuildBlock last b).1 = some b' ∧ b'.type = b.type ∧
      (∀ k, BlockKind.ofName? b.type = some k →
        b'.values = withDefaults k.definition.fields b.values) ∧
      (compileBlock? b').isSome = (compileBlock? b).isSome ∧
      (compileBlock? b' = compileBlock? b ↔ b.Explicit)
  | ⟨(), type, values, children, elseChildren⟩, ⟨htype, hfirst, hsecond⟩ => by
    obtain ⟨k, hk⟩ := Option.isSome_iff_exists.mp htype
    have hd : definition? type = some k.definition := by rw [definition?, hk, Option.map_some]
    obtain rfl := BlockKind.name_eq_of_ofName? hk
    simp only [rebuildBlock, hd]
    refine ⟨_, rfl, rfl, fun k' hk' => ?_, ?_, ?_⟩
    · obtain rfl := Option.some.inj (hk.symm.trans hk')
      rfl
    · simp only [compileBlock?, isSome_actionOf?]
    · simp only [compileBlock?, hk, Block.Explicit, Option.some.injEq, forall_eq']
      cases hhat : k.definition.shape.isHat with
      | true => simp [actionOf?_of_isHat hhat]
      | false =>
        rw [actionOf?_eq_iff hhat, readsAs_withDefaults_iff rfl, compileSlot_rebuild last _ hfirst,
          compileSlot_rebuild _ _ hsecond]
        exact ⟨fun h _ => h, fun h => h rfl⟩

theorem compileSlot_rebuild (last : BlockId) (wanted : Prop) [Decidable wanted] :
    ∀ {s : Option (List Node)}, Block.KnownSlot s →
      ((wanted → compileSlot (rebuildSlot wanted last s).1 = compileSlot s) ↔
        (wanted → Block.ExplicitSlot s))
  | none, _ => by
    refine forall_congr' fun hwanted => ?_
    simp [rebuildSlot, hwanted, compileSlot, compileList, Block.ExplicitSlot]
  | some bs, h => by
    refine forall_congr' fun hwanted => ?_
    simp only [rebuildSlot, hwanted, decide_true, if_true, compileSlot, Block.ExplicitSlot]
    exact compileList_rebuild last h

theorem compileList_rebuild (last : BlockId) : ∀ {bs : List Node}, Block.KnownList bs →
    (compileList (rebuildList last bs).1 = compileList bs ↔ Block.ExplicitList bs)
  | [], _ => by simp [rebuildList, compileList, Block.ExplicitList]
  | b :: rest, ⟨hb, hrest⟩ => by
    obtain ⟨b', hb', -, -, hsome, hiff⟩ := compileBlock?_rebuild last hb
    simp only [rebuildList, hb', Option.toList_some, List.singleton_append, compileList,
      Block.ExplicitList]
    rw [toList_append_inj hsome, hiff, compileList_rebuild _ hrest]

end

section
variable {ι : Type}

mutual

theorem compileBlock?_forget : ∀ b : Block ι, compileBlock? b.forget = compileBlock? b
  | ⟨id, type, values, children, elseChildren⟩ => by
    simp only [Block.forget, compileBlock?, compileSlot_forget children,
      compileSlot_forget elseChildren]
    exact congrFun (actionOf?_of_values rfl _ _) type

theorem compileSlot_forget :
    ∀ s : Option (List (Block ι)), compileSlot (Block.forgetSlot s) = compileSlot s
  | none => rfl
  | some bs => compileList_forget bs

theorem compileList_forget :
    ∀ bs : List (Block ι), compileList (Block.forgetList bs) = compileList bs
  | [] => rfl
  | b :: rest => by
    rw [Block.forgetList, compileList, compileList, compileBlock?_forget b, compileList_forget rest]

end

/-- The handler of a list of blocks, if the first one has a trigger. -/
def Handler.ofBlocks? (bs : List (Block ι)) : Option Handler :=
  match bs with
  | [] => none
  | head :: rest => (Trigger.ofBlock? head).map fun trigger => ⟨trigger, compileList rest⟩

theorem Handler.ofBlocks?_forget (bs : List (Block ι)) :
    ofBlocks? (Block.forgetList bs) = ofBlocks? bs := by
  cases bs with
  | nil => rfl
  | cons b rest =>
    simp only [Block.forgetList, ofBlocks?, compileList_forget]
    rw [ofBlock?_of_values b.forget_type b.forget_values]

end

end Script

/-- The blocks of the chain that are compiled spell out their fields: the hat it begins with and
what follows. -/
def DocumentChain.Explicit (c : DocumentChain) : Prop :=
  match c.blocks with
  | [] => True
  | head :: rest =>
    ∀ k, BlockKind.ofName? head.type = some k → k.definition.shape.isHat = true →
      SpellsOut k.definition.fields head.values ∧ Block.ExplicitList rest

namespace Script

theorem Handler.ofBlocks?_rebuild (last : BlockId) {c : DocumentChain}
    (h : Block.KnownList c.blocks) :
    (ofBlocks? (Graph.rebuildList last c.blocks).1).isSome = (ofChain? c).isSome ∧
      (ofBlocks? (Graph.rebuildList last c.blocks).1 = ofChain? c ↔ c.Explicit) := by
  obtain ⟨id, x, y, blocks⟩ := c
  cases blocks with
  | nil => exact ⟨rfl, by simp [Graph.rebuildList, ofBlocks?, ofChain?, DocumentChain.Explicit]⟩
  | cons head rest =>
    obtain ⟨hhead, hrest⟩ := h
    obtain ⟨k, hk⟩ := hhead.exists_kind
    obtain ⟨head', hhead', htype, hvalues, -⟩ := compileBlock?_rebuild last hhead
    have hlist := compileList_rebuild (Graph.rebuildBlock last head).2 hrest
    simp only [Graph.rebuildList, hhead', Option.toList_some, List.singleton_append,
      ofBlocks?, ofChain?, Trigger.ofBlock?, htype, ← BlockKind.name_eq_of_ofName? hk,
      BlockKind.ofName?_name, Option.isSome_map, isSome_ofType?, true_and, DocumentChain.Explicit,
      Option.some.injEq, forall_eq']
    cases hhat : k.definition.shape.isHat with
    | false => simp [ofType?_of_not_isHat hhat]
    | true =>
      obtain ⟨trigger, htrigger⟩ := Option.isSome_iff_exists.mp ((isSome_ofType? k head).trans hhat)
      obtain ⟨trigger', htrigger'⟩ :=
        Option.isSome_iff_exists.mp ((isSome_ofType? k head').trans hhat)
      have hread := ofType?_eq_iff hhat head head'
      rw [htrigger, htrigger', Option.some.injEq, readsAs_withDefaults_iff (hvalues k hk)] at hread
      simp [htrigger, htrigger', hread, hlist]

theorem Handler.ofChain?_eq (c : DocumentChain) : ofChain? c = ofBlocks? c.blocks := by
  obtain ⟨id, x, y, blocks⟩ := c
  cases blocks <;> rfl

/-- A graph without its empty chains has the handlers of all its chains. -/
theorem Handler.ofDocument_toDocument (g : Graph) :
    ofDocument g.toDocument = g.chains.filterMap fun c => ofBlocks? c.blocks := by
  rw [ofDocument, Graph.toDocument, List.filterMap_map, List.filterMap_filter]
  refine List.filterMap_congr fun c _ => ?_
  split
  · exact (ofChain?_eq _).trans (ofBlocks?_forget c.blocks)
  · rename_i hempty
    have hnil : c.blocks = [] := by simpa using hempty
    rw [hnil]
    rfl

theorem Handler.ofDocument_addDocumentChain (g : Graph) (c : DocumentChain) :
    ofDocument (g.addDocumentChain c).toDocument =
      ofDocument g.toDocument ++
        (ofBlocks? (Graph.rebuildList g.lastBlockId c.blocks).1).toList := by
  rw [ofDocument_toDocument, ofDocument_toDocument]
  simp only [Graph.addDocumentChain, Graph.addChain]
  split
  · rename_i hempty
    rw [List.isEmpty_iff.mp hempty]
    exact (List.append_nil _).symm
  · rw [List.filterMap_append]
    cases hhandler : ofBlocks? (Graph.rebuildList g.lastBlockId c.blocks).1 <;> simp [hhandler]

/-- Chains that are added to a graph add their own handlers just if they are explicit. -/
theorem Handler.ofDocument_addDocumentChains {cs : List DocumentChain}
    (h : ∀ c ∈ cs, Block.KnownList c.blocks) (g : Graph) : ∃ hs,
    ofDocument (cs.foldl Graph.addDocumentChain g).toDocument = ofDocument g.toDocument ++ hs ∧
      (hs = cs.filterMap ofChain? ↔ ∀ c ∈ cs, c.Explicit) := by
  induction cs generalizing g with
  | nil => exact ⟨[], (List.append_nil _).symm, by simp⟩
  | cons c cs ih =>
    obtain ⟨hc, hcs⟩ := List.forall_mem_cons.mp h
    obtain ⟨hs, hhandlers, hiff⟩ := ih hcs (g.addDocumentChain c)
    obtain ⟨hsome, hchain⟩ := ofBlocks?_rebuild g.lastBlockId hc
    refine ⟨(ofBlocks? (Graph.rebuildList g.lastBlockId c.blocks).1).toList ++ hs, ?_, ?_⟩
    · rw [List.foldl_cons, hhandlers, ofDocument_addDocumentChain, List.append_assoc]
    · have hcons : (c :: cs).filterMap ofChain? = (ofChain? c).toList ++ cs.filterMap ofChain? := by
        cases hc : ofChain? c <;> simp [hc]
      rw [hcons, toList_append_inj hsome, hchain, hiff, List.forall_mem_cons]

end Script

namespace Document

/-- All blocks have types of the catalogue, at every depth. -/
def Known (d : Document) : Prop := ∀ c ∈ d.chains, Block.KnownList c.blocks

/-- All blocks that are compiled spell out their fields. -/
def Explicit (d : Document) : Prop := ∀ c ∈ d.chains, c.Explicit

end Document

namespace Script

/-- A document has the same handlers before and after a graph just if it is explicit. -/
theorem Handler.ofDocument_load_iff {d : Document} (h : d.Known) (g : Graph) :
    ofDocument (g.load d).toDocument = ofDocument d ↔ d.Explicit := by
  have hstart : ofDocument (d.variableNames.foldl Graph.addDocumentVariable g.clear).toDocument =
      [] := by
    rw [ofDocument_toDocument, Graph.chains_addDocumentVariables]
    rfl
  obtain ⟨hs, hhandlers, hiff⟩ := ofDocument_addDocumentChains h
    (d.variableNames.foldl Graph.addDocumentVariable g.clear)
  rw [Graph.load, hhandlers, hstart, List.nil_append]
  exact hiff

end Script

end BlockStudio
