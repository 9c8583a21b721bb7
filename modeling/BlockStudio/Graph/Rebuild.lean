import BlockStudio.Document
import BlockStudio.Graph

/-!
Graphs from documents and documents from graphs. Rebuilding gives new ids, drops blocks whose type
is not in the catalogue, fills in missing fields and gives each block exactly the slots of its
definition. A block gets its id after the blocks in its slots.
-/
namespace BlockStudio.Graph

/-- The values with the default of each field that has none. -/
def withDefaults (fields : List Field) (values : Table String) : Table String :=
  fields.foldl (fun t f => t.insertNew f.key f.default) values

mutual

/-- Rebuilds a block after the id `last`; gives the block, if its type is known, and the last id
taken. -/
def rebuildBlock (last : BlockId) : Node → Option PlacedBlock × BlockId
  | ⟨_, type, values, children, elseChildren⟩ =>
    match definition? type with
    | none => (none, last)
    | some d =>
      let (first, last) := rebuildSlot (1 ≤ d.shape.slotCount) last children
      let (second, last) := rebuildSlot (2 ≤ d.shape.slotCount) last elseChildren
      let id := Number.countUp last 1
      (some ⟨id, type, withDefaults d.fields values, first, second⟩, id)

/-- Rebuilds a slot when the definition has it, whether the document has it or not. -/
def rebuildSlot (wanted : Bool) (last : BlockId) :
    Option (List Node) → Option (List PlacedBlock) × BlockId
  | none => (if wanted then some [] else none, last)
  | some bs =>
    if wanted then
      let (blocks, last) := rebuildList last bs
      (some blocks, last)
    else (none, last)

def rebuildList (last : BlockId) : List Node → List PlacedBlock × BlockId
  | [] => ([], last)
  | b :: rest =>
    let (block, last) := rebuildBlock last b
    let (blocks, last) := rebuildList last rest
    (block.toList ++ blocks, last)

end

def addDocumentChain (g : Graph) (c : DocumentChain) : Graph :=
  let (blocks, last) := rebuildList g.lastBlockId c.blocks
  (({ g with lastBlockId := last } : Graph).addChain ⟨c.x, c.y⟩ blocks).2

/-- Declares a variable of a document, unless its name is empty or taken. -/
def addDocumentVariable (g : Graph) (name : String) : Graph :=
  match g.declare name with
  | .ok g => g
  | .error _ => g

/-- Replaces the contents of the graph by those of a document. -/
def load (g : Graph) (d : Document) : Graph :=
  d.chains.foldl addDocumentChain (d.variableNames.foldl addDocumentVariable g.clear)

def ofDocument (d : Document) : Graph := empty.load d

def chainToDocument (c : Chain) : DocumentChain :=
  ⟨c.id, c.position.x, c.position.y, Block.forgetList c.blocks⟩

def toDocument (g : Graph) : Document :=
  ⟨(g.chains.filter fun c => !c.blocks.isEmpty).map chainToDocument, g.variableNames⟩

end BlockStudio.Graph
