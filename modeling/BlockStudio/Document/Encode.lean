import BlockStudio.Document
import BlockStudio.Json.Writer

/-!
The JSON form of documents. Members stand in a fixed order, the values of a block in ascending order
of their names, and a slot is written only when the block has it.
-/
namespace BlockStudio.Document

def valuesToJson (t : Table String) : Json :=
  .object (t.entries.map fun e => (e.1, .text e.2))

mutual

/-- The JSON form of a block. A slot is written only when the block has it. -/
def blockToJson : Node → Json
  | ⟨_, type, values, children, elseChildren⟩ =>
    .object ([("type", .text type), ("values", valuesToJson values)]
      ++ slotToJson "children" children ++ slotToJson "else_children" elseChildren)

def slotToJson (name : String) : Option (List Node) → List (String × Json)
  | none => []
  | some bs => [(name, .array (blocksToJson bs))]

def blocksToJson : List Node → List Json
  | [] => []
  | b :: rest => blockToJson b :: blocksToJson rest

end

def chainToJson (c : DocumentChain) : Json :=
  .object [("id", .number (.nat c.id)), ("x", .number (.single c.x)), ("y", .number (.single c.y)),
    ("blocks", .array (blocksToJson c.blocks))]

def toJson (d : Document) : Json :=
  .object [("chains", .array (d.chains.map chainToJson)),
    ("variables", .array (d.variableNames.map .text))]

def toText (d : Document) : String := d.toJson.pretty

end BlockStudio.Document
