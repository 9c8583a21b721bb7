import BlockStudio.Proofs.Spelling
import BlockStudio.Script.Trigger
import BlockStudio.World
import Mathlib

/-!
Canonical names of keys. A name is canonical when normalising keeps it: it is trimmed and in lower
case, has no other word for it, and is no arrow key with the word `arrow`. Main statement: a
normalised name is canonical, and so means the same key when it is normalised again, unless it is
the rest of a name after the word `arrow` and no canonical name itself.
-/
namespace BlockStudio

namespace Key

/-- A name that stands for its key as it is. -/
structure Canonical (name : String) : Prop where
  trimmed : Text.trim name = name
  lower : Text.lowerAscii name = name
  ne_spacebar : name ≠ "spacebar"
  ne_return : name ≠ "return"
  ne_arrow : ∀ rest, name = "arrow" ++ rest → rest = ""

/-- How a name is normalised. -/
inductive Normalizes (raw : String) : String → Prop
  | space (h : raw = " " ∨ Text.plain raw = "spacebar" ∨ Text.plain raw = "space") :
    Normalizes raw "space"
  | enter (h : Text.plain raw = "return") : Normalizes raw "enter"
  | kept (h : Canonical (Text.plain raw)) : Normalizes raw (Text.plain raw)
  | arrow {rest : String} (hrest : rest ≠ "")
    (h : Text.plain raw = "arrow" ++ rest) : Normalizes raw rest

theorem withoutArrow_cases (name : String) :
    (withoutArrow name = name ∧ ∀ rest, name = "arrow" ++ rest → rest = "") ∨
      ∃ rest, rest ≠ "" ∧ name = "arrow" ++ rest ∧ withoutArrow name = rest := by
  unfold withoutArrow
  split
  · rename_i c rest hrest
    refine .inr ⟨String.ofList (c :: rest), by simp, ?_, rfl⟩
    apply String.toList_inj.1
    simpa using Text.afterWord?_eq_some_iff.1 hrest
  · rename_i hrest
    refine .inl ⟨rfl, ?_⟩
    rintro rest rfl
    by_contra hne
    obtain ⟨c, cs, hcs⟩ := List.exists_cons_of_ne_nil (mt String.toList_eq_nil_iff.1 hne)
    exact hrest c cs (Text.afterWord?_eq_some_iff.2 (by rw [String.toList_append, hcs]))

theorem normalizes (raw : String) : Normalizes raw (normalize raw) := by
  unfold normalize
  change Normalizes raw (if raw = " " then "space"
    else if Text.plain raw = "spacebar" ∨ Text.plain raw = "space" then "space"
    else if Text.plain raw = "return" then "enter" else withoutArrow (Text.plain raw))
  split
  · rename_i hblank
    exact .space (.inl hblank)
  split
  · rename_i hspace
    exact .space (.inr hspace)
  split
  · rename_i henter
    exact .enter henter
  rename_i hspace henter
  rcases withoutArrow_cases (Text.plain raw) with ⟨hkept, harrow⟩ | ⟨rest, hrest, harrow, hname⟩
  · rw [hkept]
    exact .kept ⟨Text.trim_plain raw, Text.lowerAscii_plain raw,
      fun h => hspace (.inl h), henter, harrow⟩
  · rw [hname]
    exact .arrow hrest harrow

/-- A word that begins with another letter does not begin with the word `arrow`. -/
theorem ne_arrow_append {word : String} (h : word.toList.head? ≠ some 'a') (rest : String) :
    word ≠ "arrow" ++ rest := by
  rintro rfl
  simp at h

theorem canonical_space : Canonical "space" where
  trimmed := by decide
  lower := by decide +kernel
  ne_spacebar := by decide
  ne_return := by decide
  ne_arrow rest h := absurd h (ne_arrow_append (by decide) rest)

theorem canonical_enter : Canonical "enter" where
  trimmed := by decide
  lower := by decide +kernel
  ne_spacebar := by decide
  ne_return := by decide
  ne_arrow rest h := absurd h (ne_arrow_append (by decide) rest)

theorem normalize_of_canonical {name : String} (h : Canonical name) : normalize name = name := by
  have hplain : Text.plain name = name := by rw [Text.plain, h.trimmed, h.lower]
  have hcases := normalizes name
  generalize normalize name = key at hcases
  cases hcases with
  | space hspace =>
    rw [hplain] at hspace
    rcases hspace with rfl | hspacebar | rfl
    · exact absurd h.trimmed (by decide)
    · exact absurd hspacebar h.ne_spacebar
    · rfl
  | enter henter => exact absurd (hplain ▸ henter) h.ne_return
  | kept _ => exact hplain
  | arrow hrest harrow => exact absurd (h.ne_arrow _ (hplain ▸ harrow)) hrest

theorem canonical_of_normalize {name : String} (h : normalize name = name) : Canonical name := by
  have hcases := normalizes name
  generalize normalize name = key at h hcases
  cases hcases with
  | space _ => exact h ▸ canonical_space
  | enter _ => exact h ▸ canonical_enter
  | kept hcanonical => exact h ▸ hcanonical
  | arrow _ harrow =>
    have hlength := Text.length_plain_le name
    rw [harrow, h, String.toList_append, List.length_append] at hlength
    simp at hlength

/-- The canonical names are those that normalising keeps. -/
theorem normalize_eq_self_iff {name : String} : normalize name = name ↔ Canonical name :=
  ⟨canonical_of_normalize, normalize_of_canonical⟩

/-- A normalised name is canonical unless it follows the word `arrow`. -/
theorem canonical_normalize_iff (raw : String) :
    Canonical (normalize raw) ↔
      ∀ rest, rest ≠ "" → Text.plain raw = "arrow" ++ rest → Canonical rest := by
  have hcases := normalizes raw
  generalize normalize raw = key at hcases
  cases hcases with
  | space hspace =>
    refine iff_of_true canonical_space fun rest _ harrow => ?_
    rcases hspace with rfl | hspace | hspace
    · exact absurd harrow (ne_arrow_append (by decide +kernel) rest)
    · exact absurd (hspace ▸ harrow) (ne_arrow_append (by decide) rest)
    · exact absurd (hspace ▸ harrow) (ne_arrow_append (by decide) rest)
  | enter henter =>
    exact iff_of_true canonical_enter fun rest _ harrow =>
      absurd (henter ▸ harrow) (ne_arrow_append (by decide) rest)
  | kept h => exact iff_of_true h fun rest hrest harrow => absurd (h.ne_arrow rest harrow) hrest
  | arrow hrest harrow =>
    refine ⟨fun h rest _ hagain => ?_, fun h => h key hrest harrow⟩
    have hsame : "arrow" ++ key = "arrow" ++ rest := harrow.symm.trans hagain
    rwa [← (String.append_right_inj "arrow").1 hsame]

end Key

namespace World

theorem isKeyDown_empty (name : String) : empty.isKeyDown name = false := rfl

theorem isKeyDown_pressKey (w : World) (raw name : String) :
    (w.pressKey raw).isKeyDown name = (decide (name = Key.normalize raw) || w.isKeyDown name) :=
  Table.contains_insert _ _ _ _

theorem isKeyDown_releaseKey (w : World) (raw name : String) :
    (w.releaseKey raw).isKeyDown name =
      (!decide (name = Key.normalize raw) && w.isKeyDown name) := by
  simp only [releaseKey, isKeyDown, Table.contains, Table.get?_erase]
  split <;> simp [*]

end World

namespace Script.Trigger

theorem ofBlock?_of_onKey {b : Node} (hb : b.type = "on_key") :
    ofBlock? b = some (.key (Key.normalize (b.value "key"))) := by
  rw [ofBlock?, hb]
  rfl

end Script.Trigger

/-- A hat that waits for a key. -/
def Node.onKey (name : String) : Node := ⟨(), "on_key", .ofList [("key", name)], none, none⟩

theorem Node.value_onKey (name : String) : (onKey name).value "key" = name := rfl

namespace Key

/-- A normalised name means the same key when it is normalised again, be it to press the key, to
release it or to wait for it in a block, unless it follows the word `arrow` in the name it comes
from and is not canonical itself. -/
theorem normalize_again_tfae (raw : String) :
    [∀ rest, rest ≠ "" → Text.plain raw = "arrow" ++ rest → Canonical rest,
      normalize (normalize raw) = normalize raw,
      ∀ w : World, w.pressKey (normalize raw) = w.pressKey raw,
      ∀ w : World, w.releaseKey (normalize raw) = w.releaseKey raw,
      ∀ b b' : Node, b.type = "on_key" → b'.type = "on_key" → b.value "key" = raw →
        b'.value "key" = normalize raw →
        Script.Trigger.ofBlock? b' = Script.Trigger.ofBlock? b].TFAE := by
  tfae_have 1 ↔ 2 := (canonical_normalize_iff raw).symm.trans normalize_eq_self_iff.symm
  tfae_have 2 → 3 := fun h w => by rw [World.pressKey, h, World.pressKey]
  tfae_have 2 → 4 := fun h w => by rw [World.releaseKey, h, World.releaseKey]
  tfae_have 2 → 5 := fun h b b' hb hb' hraw hagain => by
    rw [Script.Trigger.ofBlock?_of_onKey hb, Script.Trigger.ofBlock?_of_onKey hb', hraw, hagain, h]
  tfae_have 3 → 2 := fun h => by
    have hdown : (World.empty.pressKey raw).isKeyDown (normalize (normalize raw)) = true := by
      rw [← h, World.isKeyDown_pressKey, decide_eq_true rfl, Bool.true_or]
    rw [World.isKeyDown_pressKey, World.isKeyDown_empty, Bool.or_false] at hdown
    exact of_decide_eq_true hdown
  tfae_have 4 → 2 := fun h => by
    have hup : ((World.empty.pressKey raw).releaseKey (normalize raw)).isKeyDown (normalize raw) =
        false := by
      rw [h, World.isKeyDown_releaseKey, decide_eq_true rfl, Bool.not_true, Bool.false_and]
    rw [World.isKeyDown_releaseKey, World.isKeyDown_pressKey, decide_eq_true rfl,
      Bool.true_or, Bool.and_true, Bool.not_eq_false'] at hup
    exact (of_decide_eq_true hup).symm
  tfae_have 5 → 2 := fun h => by
    have hsame :=
      h (.onKey raw) (.onKey (normalize raw)) rfl rfl (Node.value_onKey _) (Node.value_onKey _)
    rw [Script.Trigger.ofBlock?_of_onKey rfl,
      Script.Trigger.ofBlock?_of_onKey rfl, Node.value_onKey, Node.value_onKey] at hsame
    exact Script.Trigger.key.inj (Option.some.inj hsame)
  tfae_finish

/-- An arrow with a blank after the word is normalised to a name with the blank in front, under
which the key is held but not released. -/
theorem arrow_left_not_released :
    normalize (normalize "Arrow Left") ≠ normalize "Arrow Left" ∧
      ((World.empty.pressKey "Arrow Left").releaseKey (normalize "Arrow Left")).isKeyDown
        (normalize "Arrow Left") =
        true := by
  decide +kernel

end Key

end BlockStudio
