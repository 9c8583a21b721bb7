import BlockStudio.Catalog

/-!
Labels with places for values. A place is a name in braces; an opening brace pairs with the next
closing brace after it. Filling a label reads it once from left to right: what was filled in is
never read again.
-/
namespace BlockStudio.Label

/-- What stands for the place of a name: its value, or the place itself when the table has no such
name. -/
def place (values : Table String) (name : List Char) : List Char :=
  match values.get? (String.ofList name) with
  | some v => v.toList
  | none => '\x7b' :: (name ++ ['\x7d'])

/-- The characters before the first closing brace and those after it; none when there is no closing
brace. -/
def splitAtClose? : List Char → Option (List Char × List Char)
  | [] => none
  | c :: rest =>
    if c = '\x7d' then some ([], rest)
    else (splitAtClose? rest).map fun (name, tail) => (c :: name, tail)

theorem eq_of_splitAtClose? {cs name tail : List Char} (h : splitAtClose? cs = some (name, tail)) :
    cs = name ++ '\x7d' :: tail := by
  induction cs generalizing name with
  | nil => cases h
  | cons c rest ih =>
    unfold splitAtClose? at h
    split at h
    · simp_all
    · obtain ⟨⟨n, t⟩, hs, he⟩ := Option.map_eq_some_iff.1 h
      simp only [Prod.mk.injEq] at he
      simp [← he.1, ih (he.2 ▸ hs)]

/-- The label with its places filled. An opening brace that nothing closes is copied with all that
follows. -/
def fill (values : Table String) (cs : List Char) : List Char :=
  match cs with
  | [] => []
  | c :: rest =>
    if c = '\x7b' then
      match _h : splitAtClose? rest with
      | some (name, tail) => place values name ++ fill values tail
      | none => c :: rest
    else c :: fill values rest
termination_by cs.length
decreasing_by
  · rw [eq_of_splitAtClose? _h]
    simp
    omega
  · simp

end BlockStudio.Label

namespace BlockStudio

/-- The label of a definition with the given values in its places. -/
def Definition.renderLabel (d : Definition) (values : Table String) : String :=
  String.ofList (Label.fill values d.label.toList)

/-- The label with the defaults of its fields, as the palette shows it. -/
def Definition.defaultLabel (d : Definition) : String :=
  d.renderLabel (.ofList (d.fields.map fun f => (f.key, f.default)))

end BlockStudio
