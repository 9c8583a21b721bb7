import BlockStudio.Text.Blank
import Mathlib

/-!
Texts that are spelled with other cases of the letters `A` to `Z` or with other blanks around them.
Lower case and trimming do not get in each other's way: a blank stays one in lower case, and no
other character becomes one.
-/
namespace BlockStudio.Text

theorem isBlank_toLower (c : Char) : isBlank c.toLower = isBlank c := by
  by_cases hupper : c.isUpper = true
  · have hrange : 65 ≤ c.toNat ∧ c.toNat ≤ 90 := by
      simpa [Char.isUpper, UInt32.le_iff_toNat_le] using hupper
    have hvalid : (c.toNat + 32).isValidChar := .inl (by omega)
    have hlower : c.toLower.toNat = c.toNat + 32 := by
      rw [Char.toLower_eq_of_isUpper hupper, Char.toNat_ofNat, if_pos hvalid]
    simp only [isBlank, blankRanges, List.any_cons, List.any_nil, hlower, Bool.or_false]
    grind
  · rw [Char.toLower_eq_of_not_isUpper hupper]

theorem dropTail_map {α β : Type} (p : β → Bool) (f : α → β) (cs : List α) :
    dropTail p (cs.map f) = (dropTail (p ∘ f) cs).map f := by
  induction cs with
  | nil => rfl
  | cons c cs ih =>
    rw [List.map_cons, dropTail_cons, dropTail_cons, ih, List.isEmpty_map, Function.comp_apply]
    split <;> rfl

theorem trimChars_map_toLower (cs : List Char) :
    trimChars (cs.map Char.toLower) = (trimChars cs).map Char.toLower := by
  have hblank : isBlank ∘ Char.toLower = isBlank := funext isBlank_toLower
  rw [trimChars, trimChars, List.dropWhile_map, dropTail_map, hblank]

theorem trim_lowerAscii (s : String) : trim (lowerAscii s) = lowerAscii (trim s) := by
  apply String.toList_inj.1
  simp only [trim, lowerAscii, String.toList_map, String.toList_ofList, trimChars_map_toLower]

theorem lowerAscii_lowerAscii (s : String) : lowerAscii (lowerAscii s) = lowerAscii s := by
  have hagain : Char.toLower ∘ Char.toLower = Char.toLower := funext Char.toLower_toLower_eq_toLower
  rw [lowerAscii, lowerAscii, String.map_map, hagain]

theorem dropTail_sublist {α : Type} (p : α → Bool) (cs : List α) : (dropTail p cs).Sublist cs := by
  induction cs with
  | nil => exact .slnil
  | cons c cs ih =>
    rw [dropTail_cons]
    split
    · exact List.nil_sublist _
    · exact ih.cons_cons c

theorem toList_trim_sublist (s : String) : (trim s).toList.Sublist s.toList := by
  rw [trim, String.toList_ofList]
  exact (dropTail_sublist _ _).trans (List.dropWhile_sublist _)

/-- A text without blanks around it has none in lower case either, and the other way round. -/
theorem trim_lowerAscii_eq_iff (s : String) : trim (lowerAscii s) = lowerAscii s ↔ trim s = s := by
  rw [trim_lowerAscii]
  constructor
  · intro h
    have hlength := congrArg (·.toList.length) h
    simp only [lowerAscii, String.toList_map, List.length_map] at hlength
    exact String.toList_inj.1 ((toList_trim_sublist s).eq_of_length hlength)
  · intro h
    rw [h]

/-- The text in lower case and without the blanks around it. -/
def plain (s : String) : String := lowerAscii (trim s)

theorem trim_plain (s : String) : trim (plain s) = plain s := by
  rw [plain, trim_lowerAscii, trim_trim]

theorem lowerAscii_plain (s : String) : lowerAscii (plain s) = plain s := lowerAscii_lowerAscii _

theorem length_plain_le (s : String) : (plain s).toList.length ≤ s.toList.length := by
  rw [plain, lowerAscii, String.toList_map, List.length_map]
  exact (toList_trim_sublist s).length_le

/-- A text is a plain word up to case if it is the word, with other cases and no blanks around
it. -/
theorem sameIgnoringCase_iff {s word : String} (hword : plain word = word) :
    sameIgnoringCase s word = true ↔ plain s = word ∧ trim s = s := by
  have hlower : lowerAscii word = word := by rw [← hword, lowerAscii_plain]
  have htrim : trim word = word := by rw [← hword, trim_plain]
  rw [sameIgnoringCase, beq_iff_eq, hlower]
  constructor
  · intro hs
    have hsame : trim s = s := (trim_lowerAscii_eq_iff s).1 (by rw [hs, htrim])
    exact ⟨by rw [plain, hsame, hs], hsame⟩
  · rintro ⟨hplain, hsame⟩
    rwa [plain, hsame] at hplain

end BlockStudio.Text
