import BlockStudio.Document
import BlockStudio.Json.Decode
import BlockStudio.Json.Writer

/-!
Documents from their JSON form. Hand-written documents may give numbers or other JSON as field
values, which are kept as text. A block is read member by member, so that a repeated member is
noticed.
-/
namespace BlockStudio.Document

/-- The text of a field value: a text as it is, nothing for `null`, and compact JSON for anything
else. -/
def valueText? (j : Json) : Option String :=
  if !j.isReadable then none
  else
    match j with
    | .text s => some s
    | .null => some ""
    | j => some j.settle.compact

def values? : Json → Option (Table String)
  | .object members => (members.mapM fun e => (valueText? e.2).map (e.1, ·)).map Table.ofList
  | _ => none

/-- What is known of a block while its members are read. -/
structure Draft where
  type : Option String := none
  values : Option (Table String) := none
  children : Option (Option (List Node)) := none
  elseChildren : Option (Option (List Node)) := none

/-- The block of a draft; only the type has no default. -/
def Draft.block? (d : Draft) : Option Node :=
  d.type.map fun type => ⟨(), type, d.values.getD .empty, d.children.join, d.elseChildren.join⟩

mutual

/-- A block from its JSON form, an object or an array of its fields in order. -/
def block? : Json → Option Node
  | .object members => (members? members {}).bind Draft.block?
  | .array [type] => do
    some ⟨(), ← type.text?, .empty, none, none⟩
  | .array [type, values] => do
    some ⟨(), ← type.text?, ← values? values, none, none⟩
  | .array [type, values, children] => do
    some ⟨(), ← type.text?, ← values? values, ← slot? children, none⟩
  | .array [type, values, children, elseChildren] => do
    some ⟨(), ← type.text?, ← values? values, ← slot? children, ← slot? elseChildren⟩
  | _ => none

/-- A slot: `null` stands for no slot. -/
def slot? : Json → Option (Option (List Node))
  | .null => some none
  | .array elements => (blocks? elements).map some
  | _ => none

def blocks? : List Json → Option (List Node)
  | [] => some []
  | j :: rest => do
    let b ← block? j
    let bs ← blocks? rest
    some (b :: bs)

/-- Reads the members of a block into a draft. A known name may not repeat; other names are
ignored. -/
def members? : List (String × Json) → Draft → Option Draft
  | [], d => some d
  | (name, j) :: rest, d =>
    if name = "type" then
      if d.type.isSome then none else do members? rest { d with type := some (← j.text?) }
    else if name = "values" then
      if d.values.isSome then none else do members? rest { d with values := some (← values? j) }
    else if name = "children" then
      if d.children.isSome then none else do members? rest { d with children := some (← slot? j) }
    else if name = "else_children" then
      if d.elseChildren.isSome then
        none else do members? rest { d with elseChildren := some (← slot? j) }
    else members? rest d

end

def blockList? : Json → Option (List Node)
  | .array elements => blocks? elements
  | _ => none

def chain? (j : Json) : Option DocumentChain := do
  let f ← j.fields? ["id", "x", "y", "blocks"]
  let id ← f.defaulted 0 0 Json.nat?
  let x ← f.defaulted 1 0 Json.single?
  let y ← f.defaulted 2 0 Json.single?
  let blocks ← f.defaulted 3 [] blockList?
  some ⟨id, x, y, blocks⟩

def ofJson? (j : Json) : Option Document := do
  let f ← j.fields? ["chains", "variables"]
  let chains ← f.defaulted 0 [] (Json.list? chain?)
  let variableNames ← f.defaulted 1 [] (Json.list? Json.text?)
  some ⟨chains, variableNames⟩

end BlockStudio.Document
