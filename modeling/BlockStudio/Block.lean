import BlockStudio.Catalog

/-!
Blocks. A block has a type, values for its fields and up to two slots that hold lists of blocks. The
parameter is the kind of identity a block carries: a placed block has an id, a block of a document
has none. `Block.forget` turns one into the other and changes nothing else.
-/
namespace BlockStudio

structure Block (ι : Type) where
  id : ι
  type : String
  values : Table String
  children : Option (List (Block ι))
  elseChildren : Option (List (Block ι))

/-- A block of a document. -/
abbrev Node := Block Unit

/-- Placed blocks are told apart by numbers that are handed out once. -/
abbrev BlockId := Nat

abbrev PlacedBlock := Block BlockId

/-- The two slots that a block may have. -/
inductive Slot where
  | thenSlot
  | elseSlot
deriving Repr, DecidableEq

namespace Block

variable {ι : Type}

/-- The blocks in a slot, if the block has the slot. -/
def slot (b : Block ι) : Slot → Option (List (Block ι))
  | .thenSlot => b.children
  | .elseSlot => b.elseChildren

/-- Changes the blocks in a slot, if the block has the slot. -/
def modifySlot? (b : Block ι) (s : Slot) (f : List (Block ι) → List (Block ι)) : Option (Block ι) :=
  match s with
  | .thenSlot => b.children.map fun bs => { b with children := some (f bs) }
  | .elseSlot => b.elseChildren.map fun bs => { b with elseChildren := some (f bs) }

/-- The value of a field; a field without value reads as empty. -/
def value (b : Block ι) (key : String) : String := (b.values.get? key).getD ""

def isHat (b : Block ι) : Bool := isHatType b.type

mutual

/-- The number of blocks in the subtree of a block, itself included. -/
def count : Block ι → Nat
  | ⟨_, _, _, children, elseChildren⟩ => 1 + countSlot children + countSlot elseChildren

def countSlot : Option (List (Block ι)) → Nat
  | none => 0
  | some bs => countList bs

def countList : List (Block ι) → Nat
  | [] => 0
  | b :: rest => b.count + countList rest

end

mutual

/-- The block without its identity, at every depth. -/
def forget : Block ι → Node
  | ⟨_, type, values, children, elseChildren⟩ =>
    ⟨(), type, values, forgetSlot children, forgetSlot elseChildren⟩

def forgetSlot : Option (List (Block ι)) → Option (List Node)
  | none => none
  | some bs => some (forgetList bs)

def forgetList : List (Block ι) → List Node
  | [] => []
  | b :: rest => b.forget :: forgetList rest

end

theorem forgetList_eq_map (bs : List (Block ι)) : forgetList bs = bs.map forget := by
  induction bs with
  | nil => rfl
  | cons b rest ih => simp [forgetList, ih]

@[simp] theorem forget_type (b : Block ι) : b.forget.type = b.type := by
  cases b; simp [forget]

@[simp] theorem forget_values (b : Block ι) : b.forget.values = b.values := by
  cases b; simp [forget]

theorem countList_append (bs cs : List (Block ι)) :
    countList (bs ++ cs) = countList bs + countList cs := by
  induction bs with
  | nil => simp [countList]
  | cons b rest ih => simp [countList, ih, Nat.add_assoc]

end Block

end BlockStudio
