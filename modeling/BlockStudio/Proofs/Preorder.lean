import BlockStudio.Proofs.WellFormed

/-!
Blocks in pre-order: a block stands before the blocks of its first slot, and these before those of
its second. Each block is listed with its slots emptied, so the list says which blocks there are and
in which order, and nothing twice. Main statements: a list of blocks is complete if and only if
every listed block fits its definition, and what is looked up or edited by its id is among the
listed blocks.
-/
namespace BlockStudio

namespace Block

section
variable {ι : Type}

/-- The block with its slots emptied. -/
def bare (b : Block ι) : Block ι :=
  { b with children := b.children.map fun _ => [], elseChildren := b.elseChildren.map fun _ => [] }

mutual

/-- A block and all blocks in it, each with its slots emptied. -/
def preorder : Block ι → List (Block ι)
  | ⟨id, type, values, children, elseChildren⟩ =>
    bare ⟨id, type, values, children, elseChildren⟩ ::
      (preorderSlot children ++ preorderSlot elseChildren)

def preorderSlot : Option (List (Block ι)) → List (Block ι)
  | none => []
  | some bs => preorderList bs

def preorderList : List (Block ι) → List (Block ι)
  | [] => []
  | b :: rest => b.preorder ++ preorderList rest

end

theorem preorder_eq (b : Block ι) :
    b.preorder = b.bare :: (preorderSlot b.children ++ preorderSlot b.elseChildren) := by
  cases b
  rfl

theorem preorderList_append (bs cs : List (Block ι)) :
    preorderList (bs ++ cs) = preorderList bs ++ preorderList cs := by
  induction bs with
  | nil => rfl
  | cons b rest ih => simp [preorderList, ih]

mutual

theorem length_preorder : ∀ b : Block ι, b.preorder.length = b.count
  | ⟨_, _, _, children, elseChildren⟩ => by
    rw [preorder, count, List.length_cons, List.length_append, length_preorderSlot children,
      length_preorderSlot elseChildren]
    omega

theorem length_preorderSlot : ∀ s : Option (List (Block ι)), (preorderSlot s).length = countSlot s
  | none => rfl
  | some bs => length_preorderList bs

theorem length_preorderList : ∀ bs : List (Block ι), (preorderList bs).length = countList bs
  | [] => rfl
  | b :: rest => by
    rw [preorderList, countList, List.length_append, length_preorder b, length_preorderList rest]

end

/-- The block has a type of the catalogue, a value for every field and exactly the slots of its
definition. -/
def Fits (b : Block ι) : Prop :=
  ∃ d, definition? b.type = some d ∧ (∀ f ∈ d.fields, b.values.contains f.key = true) ∧
    (b.children.isSome ↔ 1 ≤ d.shape.slotCount) ∧ (b.elseChildren.isSome ↔ d.shape.slotCount = 2)

theorem slotCount_le_two (s : Shape) : s.slotCount ≤ 2 := by cases s <;> decide

mutual

theorem complete_iff_fits : ∀ b : Block ι, b.Complete ↔ ∀ x ∈ b.preorder, x.Fits
  | ⟨id, type, values, children, elseChildren⟩ => by
    simp only [preorder, List.mem_cons, List.mem_append, or_imp, forall_and, forall_eq]
    constructor
    · rintro ⟨d, htype, hvalues, hfirst, hsecond⟩
      obtain ⟨hchildren, hchildren'⟩ := (completeSlot_iff_fits _ children).1 hfirst
      obtain ⟨helse, helse'⟩ := (completeSlot_iff_fits _ elseChildren).1 hsecond
      have htwo := slotCount_le_two d.shape
      refine ⟨⟨d, htype, hvalues, by simpa [bare] using hchildren, ?_⟩, hchildren', helse'⟩
      simp only [bare, Option.isSome_map, helse]
      omega
    · rintro ⟨⟨d, htype, hvalues, hfirst, hsecond⟩, hchildren, helse⟩
      refine ⟨d, htype, hvalues,
        (completeSlot_iff_fits _ children).2 ⟨by simpa [bare] using hfirst, hchildren⟩,
        (completeSlot_iff_fits _ elseChildren).2 ⟨?_, helse⟩⟩
      have htwo := slotCount_le_two d.shape
      simp only [bare, Option.isSome_map] at hsecond
      rw [hsecond]
      omega

theorem completeSlot_iff_fits (wanted : Prop) :
    ∀ s : Option (List (Block ι)), CompleteSlot wanted s ↔
      (s.isSome ↔ wanted) ∧ ∀ x ∈ preorderSlot s, x.Fits
  | none => by simp [CompleteSlot, preorderSlot]
  | some bs => by
    rw [CompleteSlot, completeList_iff_fits bs]
    simp [preorderSlot]

theorem completeList_iff_fits :
    ∀ bs : List (Block ι), CompleteList bs ↔ ∀ x ∈ preorderList bs, x.Fits
  | [] => by simp [CompleteList, preorderList]
  | b :: rest => by
    rw [CompleteList, complete_iff_fits b, completeList_iff_fits rest]
    simp only [preorderList, List.mem_append, or_imp, forall_and]

end

def setSlot (b : Block ι) (s : Slot) (bs : List (Block ι)) : Block ι :=
  match s with
  | .thenSlot => { b with children := some bs }
  | .elseSlot => { b with elseChildren := some bs }

theorem setSlot_of_slot {b : Block ι} {s : Slot} {bs : List (Block ι)} (h : b.slot s = some bs) :
    b.setSlot s bs = b := by
  cases b
  cases s <;> simp_all [setSlot, slot]

theorem slot_setSlot (b : Block ι) (s : Slot) (bs : List (Block ι)) :
    (b.setSlot s bs).slot s = some bs := by
  cases s <;> rfl

end

section
variable {id : BlockId} {f : PlacedBlock → PlacedBlock}

theorem mapSlot_setSlot (b : PlacedBlock) (s : Slot) (f : List PlacedBlock → List PlacedBlock)
    (bs : List PlacedBlock) :
    mapSlot s f (b.setSlot s bs) = b.setSlot s (f bs) := by
  cases s <;> rfl

def ids (bs : List PlacedBlock) : List BlockId := (preorderList bs).map (·.id)

theorem ids_append (bs cs : List PlacedBlock) : ids (bs ++ cs) = ids bs ++ ids cs := by
  simp [ids, preorderList_append]

mutual

theorem edit?_eq_none : ∀ {b : PlacedBlock}, id ∉ b.preorder.map (·.id) → b.edit? id f = none
  | ⟨own, type, values, children, elseChildren⟩, h => by
    simp only [preorder, bare, List.map_cons, List.map_append, List.mem_cons,
      List.mem_append, not_or] at h
    obtain ⟨hown, hfirst, hsecond⟩ := h
    rw [edit?, if_neg (Ne.symm hown), editSlot?_eq_none hfirst, editSlot?_eq_none hsecond]
    rfl

theorem editSlot?_eq_none :
    ∀ {s : Option (List PlacedBlock)}, id ∉ (preorderSlot s).map (·.id) → editSlot? id f s = none
  | none, _ => rfl
  | some bs, h => by
    rw [editSlot?, editList?_eq_none h]
    rfl

theorem editList?_eq_none : ∀ {bs : List PlacedBlock}, id ∉ ids bs → editList? id f bs = none
  | [], _ => rfl
  | b :: rest, h => by
    simp only [ids, preorderList, List.map_append, List.mem_append, not_or] at h
    rw [editList?, edit?_eq_none h.1, editList?_eq_none h.2]
    rfl

end

mutual

theorem find?_eq_none : ∀ {b : PlacedBlock}, id ∉ b.preorder.map (·.id) → b.find? id = none
  | ⟨own, type, values, children, elseChildren⟩, h => by
    simp only [preorder, bare, List.map_cons, List.map_append, List.mem_cons,
      List.mem_append, not_or] at h
    obtain ⟨hown, hfirst, hsecond⟩ := h
    rw [find?, if_neg (Ne.symm hown), findSlot?_eq_none hfirst, findSlot?_eq_none hsecond]
    rfl

theorem findSlot?_eq_none :
    ∀ {s : Option (List PlacedBlock)}, id ∉ (preorderSlot s).map (·.id) → findSlot? id s = none
  | none, _ => rfl
  | some _, h => findList?_eq_none h

theorem findList?_eq_none : ∀ {bs : List PlacedBlock}, id ∉ ids bs → findList? id bs = none
  | [], _ => rfl
  | b :: rest, h => by
    simp only [ids, preorderList, List.map_append, List.mem_append, not_or] at h
    rw [findList?, find?_eq_none h.1, findList?_eq_none h.2]
    rfl

end

theorem edit?_self (b : PlacedBlock) : b.edit? b.id f = some (f b) := by
  cases b
  simp [edit?]

theorem find?_self (b : PlacedBlock) : b.find? b.id = some b := by
  cases b
  simp [find?]

variable {b b' : PlacedBlock} {before after : List PlacedBlock}

theorem editList?_middle (hbefore : id ∉ ids before) (hb : b.edit? id f = some b') :
    editList? id f (before ++ b :: after) = some (before ++ b' :: after) := by
  induction before with
  | nil => simp [editList?, hb]
  | cons c rest ih =>
    simp only [ids, preorderList, List.map_append, List.mem_append, not_or] at hbefore
    rw [List.cons_append, editList?, edit?_eq_none hbefore.1, ih hbefore.2]
    rfl

theorem findList?_middle (hbefore : id ∉ ids before) (hb : b.find? id = some b') :
    findList? id (before ++ b :: after) = some b' := by
  induction before with
  | nil => simp [findList?, hb]
  | cons c rest ih =>
    simp only [ids, preorderList, List.map_append, List.mem_append, not_or] at hbefore
    rw [List.cons_append, findList?, find?_eq_none hbefore.1, ih hbefore.2]
    rfl

/-- The blocks of the first slot, which stand before those of the second. -/
def beforeSlot (b : PlacedBlock) : Slot → List PlacedBlock
  | .thenSlot => []
  | .elseSlot => preorderSlot b.children

/-- The blocks of the second slot, which stand after those of the first. -/
def afterSlot (b : PlacedBlock) : Slot → List PlacedBlock
  | .thenSlot => preorderSlot b.elseChildren
  | .elseSlot => []

theorem preorder_setSlot (b : PlacedBlock) (s : Slot) (bs : List PlacedBlock) :
    (b.setSlot s bs).preorder =
      (b.setSlot s []).bare :: (b.beforeSlot s ++ preorderList bs ++ b.afterSlot s) := by
  cases s <;> simp [preorder_eq, setSlot, bare, beforeSlot, afterSlot, preorderSlot]

variable {s : Slot} {bs bs' : List PlacedBlock}

theorem edit?_setSlot (hid : b.id ≠ id) (hbefore : id ∉ (b.beforeSlot s).map (·.id))
    (h : editList? id f bs = some bs') : (b.setSlot s bs).edit? id f = some (b.setSlot s bs') := by
  obtain ⟨own, type, values, children, elseChildren⟩ := b
  cases s with
  | thenSlot => simp [setSlot, edit?, if_neg hid, editSlot?, h]
  | elseSlot => simp [setSlot, edit?, if_neg hid, editSlot?_eq_none hbefore, editSlot?, h]

theorem find?_setSlot {found : PlacedBlock} (hid : b.id ≠ id)
    (hbefore : id ∉ (b.beforeSlot s).map (·.id)) (h : findList? id bs = some found) :
    (b.setSlot s bs).find? id = some found := by
  obtain ⟨own, type, values, children, elseChildren⟩ := b
  cases s with
  | thenSlot => simp [setSlot, find?, if_neg hid, findSlot?, h]
  | elseSlot => simp [setSlot, find?, if_neg hid, findSlot?_eq_none hbefore, findSlot?, h]

end

end Block

end BlockStudio
