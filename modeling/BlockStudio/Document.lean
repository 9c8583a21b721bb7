import BlockStudio.Block

/-!
Script documents: chains of blocks with a position each, and the names of the declared variables.
-/
namespace BlockStudio

structure DocumentChain where
  id : Nat
  x : Float32
  y : Float32
  blocks : List Node

structure Document where
  chains : List DocumentChain
  variableNames : List String

namespace Document

def empty : Document := ⟨[], []⟩

instance : Inhabited Document := ⟨empty⟩

def blockCount (d : Document) : Nat := Block.countList (d.chains.flatMap (·.blocks))

end Document

end BlockStudio
