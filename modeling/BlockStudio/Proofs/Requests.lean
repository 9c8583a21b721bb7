import BlockStudio.Proofs.Moves

/-!
Requests to the editor, step by step. A request changes the editor as it goes, and nothing takes its
changes back when a later step refuses it. Main statement: a field is set just when its block is
found and it accepts the value, and then one value of one block is another one; a drag, a value or a
name that is refused leaves the editor as it was.
-/
namespace BlockStudio

namespace Block
variable {id : BlockId}

mutual

theorem notMem_of_find?_eq_none :
    ∀ {b : PlacedBlock}, b.find? id = none → id ∉ b.preorder.map (·.id)
  | ⟨own, type, values, children, elseChildren⟩, h => by
    rw [find?] at h
    split at h
    · cases h
    · rename_i hown
      obtain ⟨hfirst, hsecond⟩ := Option.or_eq_none_iff.1 h
      simp only [preorder, bare, List.map_cons, List.map_append, List.mem_cons,
        List.mem_append, not_or]
      exact ⟨Ne.symm hown, notMem_of_findSlot?_eq_none hfirst, notMem_of_findSlot?_eq_none hsecond⟩

theorem notMem_of_findSlot?_eq_none :
    ∀ {s : Option (List PlacedBlock)}, findSlot? id s = none → id ∉ (preorderSlot s).map (·.id)
  | none, _ => by simp [preorderSlot]
  | some _, h => notMem_of_findList?_eq_none h

theorem notMem_of_findList?_eq_none :
    ∀ {bs : List PlacedBlock}, findList? id bs = none → id ∉ ids bs
  | [], _ => by simp [ids, preorderList]
  | b :: rest, h => by
    obtain ⟨hb, hrest⟩ := Option.or_eq_none_iff.1 h
    simp only [ids, preorderList, List.map_append, List.mem_append, not_or]
    exact ⟨notMem_of_find?_eq_none hb, notMem_of_findList?_eq_none hrest⟩

end

end Block

/-- A search for the id has come to some blocks at a place of the program and has not met the id
before them. -/
structure Reaches (cs : List Chain) (id : BlockId) (p : Place)
    (before rest : List PlacedBlock) : Prop where
  chains : cs = p.fill (before ++ rest)
  lead : id ∉ p.lead.map (·.id)
  before : id ∉ Block.ids before

namespace Reaches
variable {cs : List Chain} {id : BlockId} {p : Place} {before after bs : List PlacedBlock}
    {b found : PlacedBlock}
  {s : Slot}

theorem next (h : Reaches cs id p before (b :: bs)) (hb : b.find? id = none) :
    Reaches cs id p (before ++ [b]) bs where
  chains := by simpa using h.chains
  lead := h.lead
  before := by
    have hids : Block.ids [b] = b.preorder.map (·.id) := by simp [Block.ids, Block.preorderList]
    rw [Block.ids_append, hids, List.mem_append, not_or]
    exact ⟨h.before, Block.notMem_of_find?_eq_none hb⟩

theorem inside (h : Reaches cs id p before (b :: after)) (hne : b.id ≠ id)
    (hslot : b.slot s = some bs) (hfirst : id ∉ (b.beforeSlot s).map (·.id)) :
    Reaches cs id (.slot p before b s after) [] bs where
  chains := by rw [List.nil_append, Place.fill, Block.setSlot_of_slot hslot, h.chains]
  lead := by
    have howner : (b.setSlot s []).bare.id = b.id := by cases s <;> rfl
    simp only [Place.lead, List.map_append, List.map_cons, List.mem_append,
      List.mem_cons, howner, not_or]
    exact ⟨⟨h.lead, h.before⟩, Ne.symm hne, hfirst⟩
  before := by simp [Block.ids, Block.preorderList]

mutual

theorem of_find? : ∀ (b : PlacedBlock) {p : Place} {before after : List PlacedBlock},
    Reaches cs id p before (b :: after) → b.find? id = some found →
    found.id = id ∧ ∃ p before after, Reaches cs id p before (found :: after)
  | ⟨own, type, values, children, elseChildren⟩, p, before, after, h, hfind => by
    rw [Block.find?] at hfind
    split at hfind
    · rename_i hown
      cases hfind
      exact ⟨hown, p, before, after, h⟩
    · rename_i hown
      obtain hfirst | ⟨hfirst, hsecond⟩ := Option.or_eq_some_iff.1 hfind
      · exact of_findSlot? children (s := .thenSlot) rfl h hown (by simp [Block.beforeSlot]) hfirst
      · exact of_findSlot? elseChildren (s := .elseSlot) rfl h hown
          (Block.notMem_of_findSlot?_eq_none hfirst) hsecond
termination_by structural b => b

theorem of_findSlot? :
    ∀ (content : Option (List PlacedBlock)) {p : Place} {owner : PlacedBlock} {s : Slot}
      {before after : List PlacedBlock}, owner.slot s = content →
        Reaches cs id p before (owner :: after) →
    owner.id ≠ id → id ∉ (owner.beforeSlot s).map (·.id) → Block.findSlot? id content = some found →
    found.id = id ∧ ∃ p before after, Reaches cs id p before (found :: after)
  | none, _, _, _, _, _, _, _, _, _, hfind => nomatch hfind
  | some bs, _, _, _, _, _, hslot, h, hne, hfirst, hfind =>
    of_findList? bs (h.inside hne hslot hfirst) hfind
termination_by structural content => content

theorem of_findList? : ∀ (bs : List PlacedBlock) {p : Place} {before : List PlacedBlock},
    Reaches cs id p before bs → Block.findList? id bs = some found →
    found.id = id ∧ ∃ p before after, Reaches cs id p before (found :: after)
  | [], _, _, _, hfind => nomatch hfind
  | b :: rest, _, _, h, hfind => by
    obtain hb | ⟨hb, hrest⟩ := Option.or_eq_some_iff.1 hfind
    · exact of_find? b h hb
    · exact of_findList? rest (h.next hb) hrest
termination_by structural bs => bs

end

end Reaches

namespace Graph
variable {g : Graph} {id : BlockId} {p : Place} {before after : List PlacedBlock} {b : PlacedBlock}

/-- What the search finds is the first block with the id. -/
theorem exists_reaches_of_find? (h : g.find? id = some b) :
    b.id = id ∧ ∃ p before after, Reaches g.chains id p before (b :: after) := by
  obtain ⟨front, c, back, hsplit, hfind, hfront⟩ := List.findSome?_eq_some_iff.1 h
  have hreach : Reaches g.chains id (.chain front c.id c.position back) [] c.blocks := by
    refine ⟨hsplit, ?_, by simp [Block.ids, Block.preorderList]⟩
    intro hmem
    obtain ⟨x, hx, hxid⟩ := List.mem_map.1 hmem
    obtain ⟨d, hd, hxd⟩ := List.mem_flatMap.1 hx
    exact Block.notMem_of_findList?_eq_none (hfront d hd) (List.mem_map.2 ⟨x, hxd, hxid⟩)
  exact hreach.of_findList? c.blocks hfind

theorem find?_of_reaches (h : Reaches g.chains id p before (b :: after)) (hid : b.id = id) :
    g.find? id = some b := by
  subst hid
  rw [find?, h.chains]
  exact Place.findSome?_fill h.lead (Block.findList?_middle h.before (Block.find?_self b))

/-- Around a block, the blocks in pre-order do not depend on its values. -/
theorem preorder_of_block (h : g.chains = p.fill (before ++ b :: after)) : g.preorder =
    p.lead ++ Block.preorderList before ++ b.bare ::
      (Block.preorderSlot b.children ++ Block.preorderSlot b.elseChildren ++
        Block.preorderList after ++ p.trail) := by
  rw [preorder_of_fill h, Block.preorderList, Block.preorder_eq]
  simp

/-- A change goes to the block that the search finds. -/
theorem editBlock_of_reaches (h : Reaches g.chains id p before (b :: after)) (hid : b.id = id)
    (f : PlacedBlock → PlacedBlock) :
    g.editBlock id f = { g with chains := p.fill (before ++ f b :: after) } := by
  subst hid
  rw [editBlock, h.chains]
  exact congrArg (fun chains => { g with chains })
    (Place.editInChains_fill h.lead (Block.editList?_middle h.before (Block.edit?_self b)))

end Graph

namespace Editor

/-- One value of one block is set: the block that the search finds, before and after, wherever it
stands. All else of the editor is as it was. -/
structure SetsField (e : Editor) (id : BlockId) (key value : String) (p : Place)
    (before : List PlacedBlock) (b : PlacedBlock) (after : List PlacedBlock) (values : Table String)
    (e' : Editor) : Prop where
  found : e.graph.find? id = some b
  chains : e.graph.chains = p.fill (before ++ b :: after)
  result :
    e' =
      { e with graph := { e.graph with chains := p.fill (before ++ { b with values } :: after) } }
  /-- The blocks in pre-order, each with its slots emptied, differ in this block only. -/
  listed : ∃ front back, e.graph.preorder = front ++ b.bare :: back ∧
    e'.graph.preorder = front ++ { b with values }.bare :: back
  found' : e'.graph.find? id = some { b with values }
  set : values.get? key = some value
  kept : ∀ k, k ≠ key → values.get? k = b.values.get? k

variable {e e' : Editor}

theorem setField_isOk_iff (id : BlockId) (key value : String) :
    (∃ e', e.setField id key value = .ok e') ↔
    ∃ b d f, e.graph.find? id = some b ∧ definition? b.type = some d ∧ d.field? key = some f ∧
      f.accepts value e.objects e.graph.variableNames = true := by
  constructor
  · rintro ⟨e', h⟩
    unfold setField at h
    split at h
    · cases h
    · rename_i b hfind
      split at h
      · cases h
      · rename_i d hdefinition
        split at h
        · cases h
        · rename_i f hfield
          split at h
          · rename_i haccepts
            exact ⟨b, d, f, hfind, hdefinition, hfield, haccepts⟩
          · cases h
  · rintro ⟨b, d, f, hfind, hdefinition, hfield, haccepts⟩
    simp [setField, hfind, hdefinition, hfield, haccepts]

/-- A field that is set is set in the block that is found. What stands before the block stays as it
was, so the search comes to the same place again. -/
theorem exists_setsField {id : BlockId} {key value : String}
    (h : e.setField id key value = .ok e') :
    ∃ p before b after values, e.SetsField id key value p before b after values e' := by
  obtain ⟨⟨b, hfind⟩, rfl⟩ := setField_eq_ok h
  obtain ⟨hid, p, before, after, hreach⟩ := Graph.exists_reaches_of_find? hfind
  have hedit :=
    Graph.editBlock_of_reaches hreach hid fun b => { b with values := b.values.insert key value }
  have hreach' : Reaches
      (p.fill (before ++ { b with values := b.values.insert key value } :: after)) id p before
      ({ b with values := b.values.insert key value } :: after) := ⟨rfl, hreach.lead, hreach.before⟩
  rw [hedit]
  exact ⟨p, before, b, after, b.values.insert key value,
    { found := hfind
      chains := hreach.chains
      result := rfl
      listed :=
        ⟨_, _, Graph.preorder_of_block hreach.chains, Graph.preorder_of_block hreach'.chains⟩
      found' := Graph.find?_of_reaches hreach' hid
      set := by simp
      kept := fun k hk => by simp [Table.get?_insert, hk] }⟩

/-- A request that changes the editor as it goes. What it has changed stays changed when a later
step refuses it. -/
abbrev Stepwise := EStateM Error Editor

namespace Stepwise

/-- What there is, or a refusal. -/
def orRefuse {α : Type} (err : Error) : Option α → Stepwise α
  | some a => return a
  | none => throw err

def takeBlockId : Stepwise BlockId := do
  let e ← get
  let (id, graph) := e.graph.takeBlockId
  set { e with graph }
  return id

def newBlock (type : String) (objects variableNames : List String) : Stepwise PlacedBlock := do
  let d ← orRefuse (.graph (.unknownType type)) (definition? type)
  let values :=
    Table.ofList (d.fields.map fun f => (f.key, Graph.initialValue objects variableNames f))
  let slots := d.shape.slotCount
  let id ← takeBlockId
  return ⟨id, type, values, Graph.emptySlot slots 1, Graph.emptySlot slots 2⟩

/-- Cuts a container off before a block and gives up the chains that have become empty. -/
def detach (id : BlockId) : Stepwise (List PlacedBlock) := do
  let e ← get
  let l ← orRefuse (.notDetached id) (e.graph.locate? id)
  let blocks ← orRefuse (.notDetached id) (e.graph.container? l.container)
  let graph ← orRefuse (.notDetached id) (e.graph.editContainer? l.container (·.take l.index))
  modify fun e => { e with graph }
  modify fun e => { e with graph := e.graph.prune }
  return blocks.drop l.index

def pickUp (source : DragSource) (pointer : Point) : Stepwise (List PlacedBlock × Point) := do
  let e ← get
  match source with
  | .palette type =>
    let b ← newBlock type e.objects e.graph.variableNames
    return ([b], e.paletteGrab type pointer)
  | .placed id =>
    let box ← orRefuse (.notOnCanvas id) (e.layout.block? id)
    let blocks ← detach id
    return (blocks, e.viewport.toCanvas pointer - box.rect.min)

def beginDrag (source : DragSource) (pointer : Point) : Stepwise Unit := do
  if (← get).isDragging then throw .dragInProgress
  let (blocks, grabOffset) ← pickUp source pointer
  modify fun e => { e with drag := some ⟨blocks, grabOffset, pointer, none⟩ }
  modify (·.updateDrag pointer)

def setField (id : BlockId) (key value : String) : Stepwise Unit := do
  let e ← get
  let b ← orRefuse (.unknownBlock id) (e.graph.find? id)
  let d ← orRefuse (.graph (.unknownType b.type)) (definition? b.type)
  let f ← orRefuse (.noField b.type key) (d.field? key)
  unless f.accepts value e.objects e.graph.variableNames do throw (.badValue b.type key value)
  set { e with
    graph := e.graph.editBlock id fun b => { b with values := b.values.insert key value } }

def declare (name : String) : Stepwise Unit := do
  let e ← get
  let name := Text.trim name
  if name.isEmpty then throw (.graph .emptyVariable)
  if e.graph.variableNames.contains name then throw (.graph (.repeatedVariable name))
  set { e with graph := { e.graph with variableNames := e.graph.variableNames ++ [name] } }

/-- Step by step a request does all that the operation does, or nothing when the operation is
refused. -/
structure AllOrNothing (r : Stepwise Unit) (f : Editor → Except Error Editor)
    (e : Editor) : Prop where
  granted : ∀ e', r e = .ok () e' ↔ f e = .ok e'
  refused : ∀ err e', r e = .error err e' ↔ f e = .error err ∧ e' = e

section
variable {α β : Type} {r : Stepwise α} (k : α → Stepwise β) (e : Editor)

@[simp] theorem get_step (k : Editor → Stepwise β) : (get >>= k) e = k e e := rfl

@[simp] theorem orRefuse_none_step (err : Error) : (orRefuse err none >>= k) e = .error err e := rfl

@[simp] theorem orRefuse_some_step (err : Error) (a : α) :
    (orRefuse err (some a) >>= k) e = k a e := rfl

/-- A step that is granted hands on its result and the editor as it leaves it. -/
theorem step_of_ok {e' : Editor} {a : α} (h : r e = .ok a e') : (r >>= k) e = k a e' := by
  show EStateM.bind r k e = _
  rw [EStateM.bind, h]

theorem step_of_error {e' : Editor} {err : Error} (h : r e = .error err e') :
    (r >>= k) e = .error err e' := by
  show EStateM.bind r k e = _
  rw [EStateM.bind, h]

end

section
variable (e : Editor)

theorem newBlock_eq (type : String) (objects variableNames : List String) :
    newBlock type objects variableNames e =
    match e.graph.newBlock type objects variableNames with
    | .error err => .error (.graph err) e
    | .ok (b, graph) => .ok b { e with graph } := by
  cases hdefinition : definition? type with
  | none => simp only [newBlock, Graph.newBlock, hdefinition, orRefuse_none_step]
  | some d =>
    simp only [newBlock, Graph.newBlock, hdefinition, orRefuse_some_step]
    rfl

theorem detach_eq (id : BlockId) : detach id e =
    match e.graph.detach? id with
    | none => .error (.notDetached id) e
    | some (blocks, graph) => .ok blocks { e with graph } := by
  cases hlocate : e.graph.locate? id with
  | none => simp [detach, Graph.detach?, hlocate]
  | some l =>
    cases hcontainer : e.graph.container? l.container with
    | none => simp [detach, Graph.detach?, hlocate, hcontainer]
    | some blocks =>
      cases hedit : e.graph.editContainer? l.container (·.take l.index) with
      | none => simp [detach, Graph.detach?, hlocate, hcontainer, hedit]
      | some graph =>
        have hdetach : e.graph.detach? id = some (blocks.drop l.index, graph.prune) := by
          simp [Graph.detach?, hlocate, hcontainer, hedit]
        simp only [detach, get_step, hlocate, hcontainer, hedit, orRefuse_some_step, hdetach]
        rfl

theorem pickUp_eq (source : DragSource) (pointer : Point) : pickUp source pointer e =
    match e.pickUp source pointer with
    | .error err => .error err e
    | .ok (blocks, grabOffset, graph) => .ok (blocks, grabOffset) { e with graph } := by
  cases source with
  | palette type =>
    have hnew := newBlock_eq e type e.objects e.graph.variableNames
    simp only [pickUp, Editor.pickUp, get_step]
    cases h : e.graph.newBlock type e.objects e.graph.variableNames with
    | error err =>
      simp only [h] at hnew
      exact step_of_error _ e hnew
    | ok made =>
      simp only [h] at hnew
      exact step_of_ok _ e hnew
  | placed id =>
    simp only [pickUp, Editor.pickUp, get_step]
    cases hbox : e.layout.block? id with
    | none => rfl
    | some box =>
      have hdetach := detach_eq e id
      cases h : e.graph.detach? id with
      | none =>
        simp only [h] at hdetach
        exact (orRefuse_some_step _ e _ box).trans (step_of_error _ e hdetach)
      | some taken =>
        simp only [h] at hdetach
        exact (orRefuse_some_step _ e _ box).trans (step_of_ok _ e hdetach)

theorem AllOrNothing.of_eq {r : Stepwise Unit} {f : Editor → Except Error Editor} {e : Editor}
    (h : r e = match f e with | .error err => .error err e | .ok e' => .ok () e') :
    AllOrNothing r f e := by
  refine ⟨fun e' => ?_, fun err e' => ?_⟩
  · rw [h]
    cases f e <;> simp
  · rw [h]
    cases f e <;> simp [eq_comm]

theorem allOrNothing_beginDrag (source : DragSource) (pointer : Point) :
    AllOrNothing (beginDrag source pointer) (·.beginDrag source pointer) e := by
  apply AllOrNothing.of_eq
  have hpick := pickUp_eq e source pointer
  simp only [beginDrag, Editor.beginDrag, get_step]
  cases e.isDragging with
  | true => rfl
  | false =>
    cases h : e.pickUp source pointer with
    | error err =>
      simp only [h] at hpick
      exact step_of_error _ e hpick
    | ok taken =>
      simp only [h] at hpick
      exact step_of_ok _ e hpick

theorem allOrNothing_setField (id : BlockId) (key value : String) :
    AllOrNothing (setField id key value) (·.setField id key value) e := by
  apply AllOrNothing.of_eq
  simp only [setField, Editor.setField, get_step]
  cases e.graph.find? id with
  | none => rfl
  | some b =>
    simp only [orRefuse_some_step]
    cases definition? b.type with
    | none => rfl
    | some d =>
      simp only [orRefuse_some_step]
      cases d.field? key with
      | none => rfl
      | some f =>
        simp only [orRefuse_some_step]
        cases f.accepts value e.objects e.graph.variableNames <;> rfl

theorem allOrNothing_declare (name : String) : AllOrNothing (declare name) (·.declare name) e := by
  apply AllOrNothing.of_eq
  simp only [declare, Editor.declare, Graph.declare, get_step]
  cases (Text.trim name).isEmpty with
  | true => rfl
  | false => cases e.graph.variableNames.contains (Text.trim name) <;> rfl

end

end Stepwise

/-- A field is set just when its block is found, has the field and the field accepts the value, and
then one value of one block is another one. Whatever a request has come to when it is refused, the
editor is as it was. -/
theorem requests_all_or_nothing (e : Editor) :
    (∀ id key value, (∃ e', e.setField id key value = .ok e') ↔
      ∃ b d f, e.graph.find? id = some b ∧ definition? b.type = some d ∧ d.field? key = some f ∧
        f.accepts value e.objects e.graph.variableNames = true) ∧
    (∀ id key value e', e.setField id key value = .ok e' →
      ∃ p before b after values, e.SetsField id key value p before b after values e') ∧
    (∀ id key value, Stepwise.AllOrNothing (Stepwise.setField id key value)
      (·.setField id key value) e) ∧
    (∀ source pointer, Stepwise.AllOrNothing (Stepwise.beginDrag source pointer)
      (·.beginDrag source pointer) e) ∧
    ∀ name, Stepwise.AllOrNothing (Stepwise.declare name) (·.declare name) e :=
  ⟨setField_isOk_iff, fun _ _ _ _ => exists_setsField, Stepwise.allOrNothing_setField e,
    Stepwise.allOrNothing_beginDrag e, Stepwise.allOrNothing_declare e⟩

end Editor

end BlockStudio
