import BlockStudio.Block
import BlockStudio.Geometry
import BlockStudio.Number.Counter
import BlockStudio.Number.Style

/-!
The program on the canvas: chains of placed blocks and the declared variables. Blocks are found in
pre-order (a block, then its first slot, then its second, chains in order), and every operation
names a block by its id. Ids are handed out by counters that outlive the blocks, so an id is never
used again.
-/
namespace BlockStudio

abbrev ChainId := Nat

structure Chain where
  id : ChainId
  position : Point
  blocks : List PlacedBlock

/-- A list of blocks of the graph: a chain, or a slot of a block. -/
inductive Container where
  | chain (id : ChainId)
  | slot (owner : BlockId) (slot : Slot)
deriving Repr, DecidableEq

structure Location where
  container : Container
  index : Nat
deriving Repr, DecidableEq

structure Graph where
  chains : List Chain
  variableNames : List String
  lastBlockId : BlockId
  lastChainId : ChainId

namespace Block

mutual

/-- The first block with the id in the subtree of a block. -/
def find? (id : BlockId) : PlacedBlock → Option PlacedBlock
  | ⟨own, type, values, children, elseChildren⟩ =>
    if own = id then some ⟨own, type, values, children, elseChildren⟩
    else (findSlot? id children).or (findSlot? id elseChildren)

def findSlot? (id : BlockId) : Option (List PlacedBlock) → Option PlacedBlock
  | none => none
  | some bs => findList? id bs

def findList? (id : BlockId) : List PlacedBlock → Option PlacedBlock
  | [] => none
  | b :: rest => (b.find? id).or (findList? id rest)

end

mutual

/-- Where the first block with the id is, for a block at a given place. -/
def locate? (id : BlockId) (here : Location) : PlacedBlock → Option Location
  | ⟨own, _, _, children, elseChildren⟩ =>
    if own = id then some here
    else (locateSlot? id (.slot own .thenSlot) children).or
      (locateSlot? id (.slot own .elseSlot) elseChildren)

def locateSlot? (id : BlockId) (container : Container) : Option (List PlacedBlock) → Option Location
  | none => none
  | some bs => locateList? id container 0 bs

def locateList? (id : BlockId) (container : Container) (index : Nat) :
    List PlacedBlock → Option Location
  | [] => none
  | b :: rest => (b.locate? id ⟨container, index⟩).or (locateList? id container (index + 1) rest)

end

mutual

/-- Changes the first block with the id in the subtree of a block; none when there is no such
block. -/
def edit? (id : BlockId) (f : PlacedBlock → PlacedBlock) : PlacedBlock → Option PlacedBlock
  | ⟨own, type, values, children, elseChildren⟩ =>
    if own = id then some (f ⟨own, type, values, children, elseChildren⟩)
    else
      match editSlot? id f children with
      | some children' => some ⟨own, type, values, children', elseChildren⟩
      | none => (editSlot? id f elseChildren).map fun slot => ⟨own, type, values, children, slot⟩

def editSlot? (id : BlockId) (f : PlacedBlock → PlacedBlock) :
    Option (List PlacedBlock) → Option (Option (List PlacedBlock))
  | none => none
  | some bs => (editList? id f bs).map some

def editList? (id : BlockId) (f : PlacedBlock → PlacedBlock) :
    List PlacedBlock → Option (List PlacedBlock)
  | [] => none
  | b :: rest =>
    match b.edit? id f with
    | some b' => some (b' :: rest)
    | none => (editList? id f rest).map (b :: ·)

end

/-- Changes the blocks of a slot, when the block has the slot. -/
def mapSlot (s : Slot) (f : List PlacedBlock → List PlacedBlock) (b : PlacedBlock) : PlacedBlock :=
  match s with
  | .thenSlot => { b with children := b.children.map f }
  | .elseSlot => { b with elseChildren := b.elseChildren.map f }

end Block

namespace Container

/-- How messages name a container. -/
def text : Container → String
  | .chain id => "Chain(" ++ Number.digitText id ++ ")"
  | .slot owner .thenSlot => "Slot \x7b owner: " ++ Number.digitText owner ++ ", slot: Then \x7d"
  | .slot owner .elseSlot => "Slot \x7b owner: " ++ Number.digitText owner ++ ", slot: Else \x7d"

end Container

inductive Graph.Error where
  | unknownType (type : String)
  | noContainer (container : Container)
  | emptyVariable
  | repeatedVariable (name : String)
deriving Repr, DecidableEq

namespace Graph

def Error.message : Error → String
  | .unknownType type => "Unknown block type '" ++ type ++ "'"
  | .noContainer c => "Container " ++ c.text ++ " no longer exists"
  | .emptyVariable => "Variable name must not be empty"
  | .repeatedVariable name => "Variable '" ++ name ++ "' already exists"

def empty : Graph := ⟨[], [], 0, 0⟩

instance : Inhabited Graph := ⟨empty⟩

/-- The next block id, and the graph in which it is taken. -/
def takeBlockId (g : Graph) : BlockId × Graph :=
  let id := Number.countUp g.lastBlockId 1
  (id, { g with lastBlockId := id })

/-- The value a new block has for a field: references name the first object or variable there is. -/
def initialValue (objects variableNames : List String) (f : Field) : String :=
  match f.kind with
  | .objectRef => objects.headD ""
  | .variableRef => variableNames.headD ""
  | _ => f.default

/-- A slot that exists from a given number of slots on. -/
def emptySlot (slots needed : Nat) : Option (List PlacedBlock) :=
  if needed ≤ slots then some [] else none

/-- A new block of a type with its initial values and empty slots. -/
def newBlock (g : Graph) (type : String) (objects variableNames : List String) :
    Except Error (PlacedBlock × Graph) :=
  match definition? type with
  | none => .error (.unknownType type)
  | some d =>
    let (id, g) := g.takeBlockId
    let values := Table.ofList (d.fields.map fun f => (f.key, initialValue objects variableNames f))
    let slots := d.shape.slotCount
    .ok (⟨id, type, values, emptySlot slots 1, emptySlot slots 2⟩, g)

/-- The graph with a new chain at its end; without blocks there is no chain. -/
def addChain (g : Graph) (position : Point) (blocks : List PlacedBlock) : Option ChainId × Graph :=
  if blocks.isEmpty then (none, g)
  else
    let id := Number.countUp g.lastChainId 1
    (some id, { g with chains := g.chains ++ [⟨id, position, blocks⟩], lastChainId := id })

def chain? (g : Graph) (id : ChainId) : Option Chain := g.chains.find? (·.id == id)

/-- Changes the first chain with the id. -/
def editChains (id : ChainId) (f : Chain → Chain) : List Chain → List Chain
  | [] => []
  | c :: rest => if c.id = id then f c :: rest else c :: editChains id f rest

def editChain (g : Graph) (id : ChainId) (f : Chain → Chain) : Graph :=
  { g with chains := editChains id f g.chains }

def find? (g : Graph) (id : BlockId) : Option PlacedBlock :=
  g.chains.findSome? fun c => Block.findList? id c.blocks

def locate? (g : Graph) (id : BlockId) : Option Location :=
  g.chains.findSome? fun c => Block.locateList? id (.chain c.id) 0 c.blocks

/-- Changes the first block with the id in a list of chains. -/
def editInChains (id : BlockId) (f : PlacedBlock → PlacedBlock) : List Chain → List Chain
  | [] => []
  | c :: rest =>
    match Block.editList? id f c.blocks with
    | some blocks => { c with blocks } :: rest
    | none => c :: editInChains id f rest

def editBlock (g : Graph) (id : BlockId) (f : PlacedBlock → PlacedBlock) : Graph :=
  { g with chains := editInChains id f g.chains }

def container? (g : Graph) : Container → Option (List PlacedBlock)
  | .chain id => (g.chain? id).map (·.blocks)
  | .slot owner slot => (g.find? owner).bind (·.slot slot)

/-- Changes the blocks of a container; none when there is no such container. -/
def editContainer? (g : Graph) (c : Container) (f : List PlacedBlock → List PlacedBlock) :
    Option Graph :=
  if (g.container? c).isNone then none
  else
    match c with
    | .chain id => some (g.editChain id fun chain => { chain with blocks := f chain.blocks })
    | .slot owner slot => some (g.editBlock owner (Block.mapSlot slot f))

/-- The graph without chains that have no blocks. -/
def prune (g : Graph) : Graph :=
  { g with chains := g.chains.filter fun c => !c.blocks.isEmpty }

/-- Takes a block and all that follow it in its container out of the graph. A chain left empty goes
too. -/
def detach? (g : Graph) (id : BlockId) : Option (List PlacedBlock × Graph) := do
  let l ← g.locate? id
  let blocks ← g.container? l.container
  let rest ← g.editContainer? l.container (·.take l.index)
  some (blocks.drop l.index, rest.prune)

/-- Puts blocks into a list at an index, or at its end when it is shorter. -/
def spliceAt (index : Nat) (blocks list : List PlacedBlock) : List PlacedBlock :=
  list.take index ++ blocks ++ list.drop index

def insert (g : Graph) (c : Container) (index : Nat) (blocks : List PlacedBlock) :
    Except Error Graph :=
  match g.editContainer? c (spliceAt index blocks) with
  | none => .error (.noContainer c)
  | some g => .ok g

def blockCount (g : Graph) : Nat := Block.countList (g.chains.flatMap (·.blocks))

/-- Declares a variable under its trimmed name. -/
def declare (g : Graph) (name : String) : Except Error Graph :=
  let name := Text.trim name
  if name.isEmpty then .error .emptyVariable
  else if g.variableNames.contains name then .error (.repeatedVariable name)
  else .ok { g with variableNames := g.variableNames ++ [name] }

/-- Removes a variable; blocks may still name it. -/
def undeclare (g : Graph) (name : String) : Graph :=
  { g with variableNames := g.variableNames.filter (· ≠ name) }

/-- The graph without chains and variables. The counters keep running. -/
def clear (g : Graph) : Graph := { g with chains := [], variableNames := [] }

end Graph

end BlockStudio
