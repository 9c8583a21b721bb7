/-!
Blank characters and trimming. A character is blank when the Unicode property White_Space holds of
it; `trim` drops blanks at both ends of a text and nothing between. The main lemma says that a
trimmed text has no blank left to drop.
-/
namespace BlockStudio.Text

/-- Code points with the property White_Space, as closed ranges in ascending order. -/
def blankRanges : List (Nat × Nat) :=
  [(0x9, 0xD), (0x20, 0x20), (0x85, 0x85), (0xA0, 0xA0), (0x1680, 0x1680), (0x2000, 0x200A),
   (0x2028, 0x2029), (0x202F, 0x202F), (0x205F, 0x205F), (0x3000, 0x3000)]

def isBlank (c : Char) : Bool :=
  blankRanges.any fun (lo, hi) => lo ≤ c.toNat && c.toNat ≤ hi

/-- Drops what satisfies `p` at the end of a list. -/
def dropTail {α : Type} (p : α → Bool) (cs : List α) : List α :=
  cs.foldr (fun c rest => if rest.isEmpty && p c then [] else c :: rest) []

def trimChars (cs : List Char) : List Char :=
  dropTail isBlank (cs.dropWhile isBlank)

/-- The text without the blanks at its two ends. -/
def trim (s : String) : String :=
  String.ofList (trimChars s.toList)

/-- Lower case for the letters `A` to `Z`; every other character is kept. -/
def lowerAscii (s : String) : String :=
  s.map Char.toLower

/-- What follows a word at the front of a text, if the text begins with it. -/
def afterWord? : List Char → List Char → Option (List Char)
  | [], cs => some cs
  | w :: ws, c :: cs => if w = c then afterWord? ws cs else none
  | _ :: _, [] => none

/-- Whether two texts agree up to the case of the letters `A` to `Z`. -/
def sameIgnoringCase (a b : String) : Bool :=
  lowerAscii a == lowerAscii b

theorem afterWord?_eq_some_iff {word cs tail : List Char} :
    afterWord? word cs = some tail ↔ cs = word ++ tail := by
  fun_induction afterWord? word cs <;> grind

theorem dropTail_nil {α : Type} (p : α → Bool) : dropTail p [] = [] := rfl

theorem dropTail_cons {α : Type} (p : α → Bool) (c : α) (cs : List α) :
    dropTail p (c :: cs) = if (dropTail p cs).isEmpty && p c then [] else c :: dropTail p cs := rfl

/-- Dropping at the end twice drops no more than dropping once. -/
theorem dropTail_dropTail {α : Type} (p : α → Bool) (cs : List α) :
    dropTail p (dropTail p cs) = dropTail p cs := by
  induction cs with
  | nil => rfl
  | cons d ds ih =>
    rw [dropTail_cons]
    split
    · rfl
    · rename_i h
      rw [dropTail_cons, ih, if_neg h]

theorem dropTail_head {α : Type} (p : α → Bool) (c : α) (cs : List α) (hc : p c = false) :
    ∃ rest, dropTail p (c :: cs) = c :: rest :=
  ⟨dropTail p cs, by simp [dropTail_cons, hc]⟩

theorem trimChars_trimChars (cs : List Char) : trimChars (trimChars cs) = trimChars cs := by
  unfold trimChars
  cases h : cs.dropWhile isBlank with
  | nil => simp [dropTail_nil]
  | cons c rest =>
    have hc : isBlank c = false := by
      have := List.head?_dropWhile_not isBlank cs
      simpa [h] using this
    obtain ⟨tail, ht⟩ := dropTail_head isBlank c rest hc
    rw [ht, List.dropWhile_cons_of_neg (by simp [hc]), ← ht, dropTail_dropTail]

/-- A trimmed text has no blank left to drop. -/
theorem trim_trim (s : String) : trim (trim s) = trim s := by
  simp [trim, trimChars_trimChars]

end BlockStudio.Text
