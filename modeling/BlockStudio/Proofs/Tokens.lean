import BlockStudio.Json.Lexer
import BlockStudio.Json.Writer

/-!
The tokens of a printed tree. A text inside quotes is read as the characters that were written. A
number is read as far as it reaches when what follows it cannot go on with it, and a line break, a
comma and the end of a text cannot. So the text of a tree, at any level of indentation, splits into
the tokens of the tree.
-/
namespace BlockStudio.Json
open BlockStudio.Number

/-! ### Quoted texts -/

theorem hexValue?_digitChar :
    ∀ hi < 2, ∀ lo < 16, hexValue? ['0', '0', Nat.digitChar hi, Nat.digitChar lo] =
      some (16 * hi + lo) := by
  decide

/-- A character is read from what stands for it. -/
theorem spanText?_escape (c : Char) (rest : List Char) :
    spanText? (escape c ++ rest) = (spanText? rest).map fun (ps, tail) =>
      (.char c :: ps, tail) := by
  unfold escape
  split
  case h_8 _ hquote hback _ _ _ _ _ =>
    split
    · have hhex := hexValue?_digitChar (c.toNat / 16) (by omega) (c.toNat % 16) (by omega)
      have hunit : Piece.ofUnit c.toNat = .char c := by
        rw [Piece.ofUnit, if_neg (by omega), Char.ofNat_toNat]
      simp only [List.cons_append, List.nil_append, spanText?, hhex, Nat.div_add_mod, hunit]
    · rename_i hcontrol
      have hplain : ¬(c = '\\' ∨ c.toNat < 0x20) := fun h => h.elim hback hcontrol
      rw [List.singleton_append, spanText?, if_neg hplain]
      · exact hquote
      all_goals
        intros
        contradiction
  all_goals simp [spanText?, escaped?]

theorem spanText?_flatMap_escape (cs rest : List Char) :
    spanText? (cs.flatMap escape ++ '"' :: rest) = some (cs.map .char, rest) := by
  induction cs with
  | nil => simp [spanText?]
  | cons c cs ih =>
    rw [List.flatMap_cons, List.append_assoc, spanText?_escape, ih, Option.map_some, List.map_cons]

theorem joinPieces?_map_char (cs : List Char) : joinPieces? (cs.map .char) = some cs := by
  induction cs with
  | nil => rfl
  | cons c cs ih => rw [List.map_cons, joinPieces?, ih, Option.map_some]

/-- A quoted text is read back, whatever it holds and whatever follows it. -/
theorem spanToken?_quoted (s : String) (rest : List Char) :
    spanToken? (quoted s ++ rest) = some (.text (some s), rest) := by
  have hspan := spanText?_flatMap_escape s.toList rest
  simp only [quoted, List.cons_append, List.append_assoc, List.nil_append, spanToken?,
    hspan, Option.map_some, joinPieces?_map_char, String.ofList_toList]

/-! ### Numbers -/

theorem spanToken?_minus (cs : List Char) :
    spanToken? ('-' :: cs) = (spanNumeral? cs).map fun (n, tail) =>
      (.number (Number.ofNumeral? true n), tail) := rfl

theorem spanToken?_digit {c : Char} (h : c.isDigit = true) (cs : List Char) :
    spanToken? (c :: cs) =
      (spanNumeral? (c :: cs)).map fun (n, tail) =>
        (.number (Number.ofNumeral? false n), tail) := by
  rw [spanToken?, if_pos h]
  all_goals
    rintro rfl
    revert h
    decide

/-- A number begins with a minus or a digit. -/
theorem spanToken?_eq_number {cs tail : List Char} {n : Option Number}
    (h : spanToken? cs = some (.number n, tail)) :
    (∃ body m, cs = '-' :: body ∧ spanNumeral? body = some (m, tail) ∧
      Number.ofNumeral? true m = n) ∨
    (∃ c body m, cs = c :: body ∧ c.isDigit = true ∧ spanNumeral? (c :: body) = some (m, tail) ∧
      Number.ofNumeral? false m = n) := by
  unfold spanToken? at h
  split at h
  case h_9 body =>
    obtain ⟨⟨m, t⟩, hspan, h⟩ := Option.map_eq_some_iff.1 h
    grind
  case h_10 c body _ _ _ _ _ _ _ _ =>
    split at h
    · obtain ⟨⟨m, t⟩, hspan, h⟩ := Option.map_eq_some_iff.1 h
      grind
    · obtain ⟨⟨word, t⟩, hword, hspan⟩ := List.exists_of_findSome?_eq_some h
      obtain ⟨t', -, he⟩ := Option.map_eq_some_iff.1 hspan
      obtain ⟨rfl, -⟩ := Prod.mk.inj he
      simp [words] at hword
  all_goals simp at h

/-- Whether a number before this text ends there. -/
def EndsNumber (rest : List Char) : Prop :=
  ∀ c ∈ rest.head?, c.isDigit = false ∧ c ≠ '.' ∧ c ≠ 'e' ∧ c ≠ 'E'

theorem spanNumberFraction?_of_head {cs : List Char} (h : ∀ c ∈ cs.head?, c ≠ '.') :
    spanNumberFraction? cs = some ([], cs) := by
  unfold spanNumberFraction?
  split
  · exact absurd rfl (h '.' rfl)
  · rfl

theorem spanSign_append {cs : List Char} (rest : List Char) (h : cs ≠ []) :
    spanSign (cs ++ rest) = ((spanSign cs).1, (spanSign cs).2 ++ rest) := by
  obtain ⟨c, cs, rfl⟩ := List.exists_cons_of_ne_nil h
  unfold spanSign
  split <;> split <;> simp_all

section
variable {cs tail rest : List Char} (hrest : EndsNumber rest)
include hrest

theorem spanDigits_append_right (cs : List Char) :
    spanDigits (cs ++ rest) = ((spanDigits cs).1, (spanDigits cs).2 ++ rest) := by
  induction cs with
  | nil =>
    cases rest with
    | nil => rfl
    | cons c rest =>
      have hc := (hrest c rfl).1
      simp [spanDigits, hc]
  | cons c cs ih =>
    simp only [spanDigits, Prod.mk.injEq] at ih
    by_cases hc : c.isDigit = true
    · simp [spanDigits, hc, ih]
    · simp [spanDigits, hc]

theorem spanNumberFraction?_append {digits : List Char}
    (h : spanNumberFraction? cs = some (digits, tail)) :
    spanNumberFraction? (cs ++ rest) = some (digits, tail ++ rest) := by
  unfold spanNumberFraction? at h
  split at h
  · rename_i cs
    simp only [List.cons_append, spanNumberFraction?, spanDigits_append_right hrest]
    grind
  · rename_i hpoint
    have hhead : ∀ c ∈ (cs ++ rest).head?, c ≠ '.' := by
      cases cs with
      | nil => exact fun c hc => (hrest c hc).2.1
      | cons c cs =>
        intro d hd hpointed
        obtain rfl : c = d := Option.some.inj hd
        exact hpoint cs (hpointed ▸ rfl)
    rw [spanNumberFraction?_of_head hhead]
    grind

theorem spanNumberExponent?_append {exponent : Option Exponent}
    (h : spanNumberExponent? cs = some (exponent, tail)) :
    spanNumberExponent? (cs ++ rest) = some (exponent, tail ++ rest) := by
  unfold spanNumberExponent? at h
  split at h
  · cases rest with
    | nil => simp_all [spanNumberExponent?]
    | cons c rest => grind [spanNumberExponent?, hrest c rfl]
  · rename_i c cs
    split at h
    · rename_i hletter
      have hne : cs ≠ [] := by
        rintro rfl
        simp [spanSign, spanDigits] at h
      simp only [List.cons_append, spanNumberExponent?, if_pos hletter, spanSign_append rest hne,
        spanDigits_append_right hrest]
      grind
    · grind [spanNumberExponent?]

theorem spanNumeral?_append {n : Numeral} (h : spanNumeral? cs = some (n, tail)) :
    spanNumeral? (cs ++ rest) = some (n, tail ++ rest) := by
  unfold spanNumeral? at h ⊢
  simp only [Option.bind_eq_bind, spanDigits_append_right hrest] at h ⊢
  split at h
  · cases h
  · rename_i hwhole
    rw [if_neg hwhole]
    obtain ⟨⟨digits, r⟩, hfraction, h⟩ := Option.bind_eq_some_iff.1 h
    obtain ⟨⟨exponent, t⟩, hexponent, h⟩ := Option.bind_eq_some_iff.1 h
    have hf := spanNumberFraction?_append hrest hfraction
    have he := spanNumberExponent?_append hrest hexponent
    grind

/-- A number is read as far as it reaches when what follows it ends it. -/
theorem spanToken?_append_number {n : Option Number} (h : spanToken? cs = some (.number n, tail)) :
    spanToken? (cs ++ rest) = some (.number n, tail ++ rest) := by
  obtain ⟨body, m, rfl, hspan, rfl⟩ | ⟨c, body, m, rfl, hdigit, hspan, rfl⟩ :=
    spanToken?_eq_number h
  · have happend := spanNumeral?_append hrest hspan
    rw [List.cons_append, spanToken?_minus, happend, Option.map_some]
  · have happend := spanNumeral?_append hrest hspan
    rw [List.cons_append] at happend
    rw [List.cons_append, spanToken?_digit hdigit, happend, Option.map_some]

end

/-! ### Whole numbers -/

theorem le_ofDigitChars (cs : List Char) (n : Nat) : n ≤ Nat.ofDigitChars 10 cs n := by
  induction cs generalizing n with
  | nil => exact Nat.le_refl n
  | cons c cs ih =>
    rw [Nat.ofDigitChars_cons]
    exact Nat.le_trans (by omega) (ih _)

/-- No digit is left out of a number that fits. -/
theorem takeWhole_of_le {cs : List Char} {n : Nat} (h : Nat.ofDigitChars 10 cs n ≤ Number.wordMax) :
    Number.takeWhole n cs = (Nat.ofDigitChars 10 cs n, 0) := by
  induction cs generalizing n with
  | nil => rfl
  | cons c cs ih =>
    have hdigit : ofDigits [c] = c.toNat - '0'.toNat := by simp [ofDigits]
    rw [Nat.ofDigitChars_cons] at h ⊢
    rw [Number.takeWhole, hdigit, if_pos (Nat.le_trans (le_ofDigitChars cs _) h), ih h]

/-- The digits of a positive number do not begin with zero. -/
theorem head?_toDigits {n : Nat} (h : 0 < n) : (Nat.toDigits 10 n).head? ≠ some '0' := by
  induction n using Nat.strongRecOn with
  | ind n ih =>
    by_cases hn : n < 10
    · have hsmall : ∀ m < 10, 0 < m → m.digitChar ≠ '0' := by decide
      rw [Nat.toDigits_of_lt_base hn]
      simpa using hsmall n hn h
    · obtain ⟨c, cs, hdigits⟩ := List.exists_cons_of_ne_nil (@Nat.toDigits_ne_nil (n / 10) 10)
      have hfirst := ih (n / 10) (by omega) (by omega)
      rw [Nat.toDigits_of_base_le (by decide) (by omega)]
      rwa [hdigits] at hfirst ⊢

theorem isDigit_toDigits (n : Nat) : ∀ c ∈ Nat.toDigits 10 n, c.isDigit = true :=
  fun _ hc => Nat.isDigit_of_mem_toDigits (by decide) (by decide) hc

theorem spanNumeral?_toDigits (n : Nat) :
    spanNumeral? (Nat.toDigits 10 n) = some (⟨Nat.toDigits 10 n, [], none⟩, []) := by
  have hdigits : spanDigits (Nat.toDigits 10 n) = (Nat.toDigits 10 n, []) := by
    have htake := @List.takeWhile_append_of_pos _ _ _ [] (isDigit_toDigits n)
    have hdrop := @List.dropWhile_append_of_pos _ _ _ [] (isDigit_toDigits n)
    simpa [spanDigits] using And.intro htake hdrop
  have hlead : (Nat.toDigits 10 n).head? = some '0' → (Nat.toDigits 10 n).length = 1 := by
    intro hzero
    obtain rfl | hn := Nat.eq_zero_or_pos n
    · rfl
    · exact absurd hzero (head?_toDigits hn)
  have hne : Nat.toDigits 10 n ≠ [] := Nat.toDigits_ne_nil
  simpa [spanNumeral?, hdigits, hne, spanNumberFraction?, spanNumberExponent?] using hlead

/-- `m` is the number read from the text of `n`. -/
def Number.ReadsAs (n m : Number) : Prop :=
  spanToken? n.text.toList = some (.number (some m), [])

/-- A whole number of 64 bits is read back. -/
theorem Number.nat_readsAs {n : Nat} (h : n ≤ wordMax) : (Number.nat n).ReadsAs (.nat n) := by
  have hvalue : Nat.ofDigitChars 10 (Nat.toDigits 10 n) 0 = n :=
    Nat.ofDigitChars_toDigits (by decide) (by decide)
  have hnumber : ofNumeral? false ⟨Nat.toDigits 10 n, [], none⟩ = some (.nat n) := by
    simp [ofNumeral?, takeWhole_of_le (hvalue.symm ▸ h), hvalue]
  obtain ⟨c, cs, hdigits⟩ := List.exists_cons_of_ne_nil (@Nat.toDigits_ne_nil n 10)
  have hc : c.isDigit = true := isDigit_toDigits n c (hdigits ▸ List.mem_cons_self)
  rw [ReadsAs, text, digitText, String.toList_ofList, hdigits, spanToken?_digit hc, ← hdigits,
    spanNumeral?_toDigits, Option.map_some]
  exact congrArg (fun m => some (Token.number m, [])) hnumber

/-! ### Trees -/

/-- The number read back from the text of a number. -/
def Number.reread (n : Number) : Number :=
  match spanToken? n.text.toList with
  | some (.number (some m), []) => m
  | _ => n

theorem Number.ReadsAs.reread_eq {n m : Number} (h : n.ReadsAs m) : n.reread = m := by
  rw [ReadsAs] at h
  rw [reread, h]

mutual

/-- Whether the text of every number of the tree is a number that has a value. -/
def Legible : Json → Prop
  | .number n => n.ReadsAs n.reread
  | .array elements => elementsLegible elements
  | .object members => membersLegible members
  | .unreadable => False
  | _ => True

def elementsLegible : List Json → Prop
  | [] => True
  | j :: rest => j.Legible ∧ elementsLegible rest

def membersLegible : List (String × Json) → Prop
  | [] => True
  | (_, j) :: rest => j.Legible ∧ membersLegible rest

end

mutual

/-- The tokens of the text of a tree. -/
def tokens : Json → List Token
  | .null => [.null]
  | .bool b => [.bool b]
  | .number n => [.number (some n.reread)]
  | .text s => [.text (some s)]
  | .array elements => .openArray :: (elementTokens elements ++ [.closeArray])
  | .object members => .openObject :: (memberTokens members ++ [.closeObject])
  | .unreadable => [.null]

def elementTokens : List Json → List Token
  | [] => []
  | [j] => j.tokens
  | j :: rest => j.tokens ++ .comma :: elementTokens rest

def memberTokens : List (String × Json) → List Token
  | [] => []
  | [(k, j)] => .text (some k) :: .colon :: j.tokens
  | (k, j) :: rest => .text (some k) :: .colon :: (j.tokens ++ .comma :: memberTokens rest)

end

/-- The text `cs` begins with the tokens `ts`, and `rest` follows them. -/
def Lexes (cs : List Char) (ts : List Token) (rest : List Char) : Prop :=
  lex cs = (lex rest).map (ts ++ ·)

theorem lex_nil : lex [] = some [] := by
  rw [lex]
  rfl

namespace Lexes

theorem refl (cs : List Char) : Lexes cs [] cs := by
  simp [Lexes]

theorem trans {cs middle rest : List Char} {ts us : List Token} (h : Lexes cs ts middle)
    (h' : Lexes middle us rest) : Lexes cs (ts ++ us) rest := by
  rw [Lexes] at h h' ⊢
  rw [h, h', Option.map_map]
  congr 1
  funext vs
  exact (List.append_assoc ts us vs).symm

theorem token {cs tail rest : List Char} {t : Token} {ts : List Token}
    (h : spanToken? cs = some (t, tail)) (h' : Lexes tail ts rest) : Lexes cs (t :: ts) rest := by
  have hcs : Lexes cs [t] tail := by
    rw [Lexes, lex]
    split <;> simp_all
  exact hcs.trans h'

theorem space {c : Char} {cs rest : List Char} {ts : List Token} (hc : isSpace c = true)
    (h : Lexes cs ts rest) :
    Lexes (c :: cs) ts rest := by
  have hnone : spanToken? (c :: cs) = none := by
    simp only [isSpace, Bool.or_eq_true, decide_eq_true_eq, or_assoc] at hc
    obtain rfl | rfl | rfl | rfl := hc <;> rfl
  rw [Lexes] at h ⊢
  rw [lex, ← h]
  split <;> simp_all

theorem indent {cs rest : List Char} {ts : List Token} (level : Nat) (h : Lexes cs ts rest) :
    Lexes (indent level ++ cs) ts rest := by
  have hblanks : ∀ n, Lexes (List.replicate n ' ' ++ cs) ts rest := by
    intro n
    induction n with
    | zero => exact h
    | succ n ih => exact ih.space rfl
  exact (hblanks (2 * level)).space rfl

end Lexes

theorem spanToken?_null (rest : List Char) :
    spanToken? ("null".toList ++ rest) = some (.null, rest) := rfl

theorem spanToken?_bool (b : Bool) (rest : List Char) :
    spanToken? ((if b then "true" else "false").toList ++ rest) = some (.bool b, rest) := by
  cases b <;> rfl

theorem endsNumber_nil : EndsNumber [] := by
  intro c hc
  cases hc

theorem endsNumber_comma (rest : List Char) : EndsNumber (',' :: rest) := by
  rintro c ⟨⟩
  decide

theorem endsNumber_indent (level : Nat) (rest : List Char) : EndsNumber (indent level ++ rest) := by
  rintro c ⟨⟩
  decide

mutual

/-- The text of a tree splits into the tokens of the tree. -/
theorem lexes_prettyChars :
    ∀ (j : Json) (level : Nat) (rest : List Char), j.Legible → EndsNumber rest →
    Lexes (j.prettyChars level ++ rest) j.tokens rest
  | .null, _, rest, _, _ => .token (spanToken?_null rest) (.refl rest)
  | .bool b, _, rest, _, _ => .token (spanToken?_bool b rest) (.refl rest)
  | .number n, _, rest, hj, hrest => by
    have hspan := spanToken?_append_number hrest hj
    exact .token hspan (.refl rest)
  | .text s, _, rest, _, _ => .token (spanToken?_quoted s rest) (.refl rest)
  | .array [], _, rest, _, _ => .token rfl (.token rfl (.refl rest))
  | .array (j :: js), level, rest, hj, _ => by
    have helements := lexes_prettyElements (j :: js) (level + 1) (indent level ++ ']' :: rest) hj
      (endsNumber_indent _ _)
    have hclose : Lexes (indent level ++ ']' :: rest) [.closeArray] rest :=
      .indent level (.token rfl (.refl rest))
    rw [prettyChars, tokens, List.cons_append, List.append_assoc, List.append_assoc,
      List.singleton_append]
    exact .token rfl (helements.trans hclose)
  | .object [], _, rest, _, _ => .token rfl (.token rfl (.refl rest))
  | .object (e :: es), level, rest, hj, _ => by
    have hmembers := lexes_prettyMembers (e :: es) (level + 1) (indent level ++ '\x7d' :: rest) hj
      (endsNumber_indent _ _)
    have hclose : Lexes (indent level ++ '\x7d' :: rest) [.closeObject] rest :=
      .indent level (.token rfl (.refl rest))
    rw [prettyChars, tokens, List.cons_append, List.append_assoc, List.append_assoc,
      List.singleton_append]
    exact .token rfl (hmembers.trans hclose)
  | .unreadable, _, _, hj, _ => hj.elim

theorem lexes_prettyElements :
    ∀ (js : List Json) (level : Nat) (rest : List Char), elementsLegible js →
    EndsNumber rest → Lexes (prettyElements level js ++ rest) (elementTokens js) rest
  | [], _, rest, _, _ => .refl rest
  | [j], level, rest, hj, hrest => by
    rw [prettyElements, elementTokens, List.append_assoc]
    exact .indent level (lexes_prettyChars j level rest hj.1 hrest)
  | j :: k :: js, level, rest, hj, hrest => by
    have helements := lexes_prettyElements (k :: js) level rest hj.2 hrest
    have hvalue :=
      lexes_prettyChars j level (',' :: (prettyElements level (k :: js) ++ rest)) hj.1
        (endsNumber_comma _)
    rw [prettyElements, elementTokens, List.append_assoc, List.append_assoc, List.cons_append]
    · exact .indent level (hvalue.trans (.token rfl helements))
    all_goals simp

theorem lexes_prettyMembers :
    ∀ (es : List (String × Json)) (level : Nat) (rest : List Char), membersLegible es →
    EndsNumber rest → Lexes (prettyMembers level es ++ rest) (memberTokens es) rest
  | [], _, rest, _, _ => .refl rest
  | [(k, j)], level, rest, hj, hrest => by
    have hvalue := lexes_prettyChars j level rest hj.1 hrest
    simp only [prettyMembers, memberTokens, List.append_assoc]
    exact .indent level (.token (spanToken?_quoted k _) (.token rfl (.space rfl hvalue)))
  | (k, j) :: e :: es, level, rest, hj, hrest => by
    have hmembers := lexes_prettyMembers (e :: es) level rest hj.2 hrest
    have hvalue :=
      lexes_prettyChars j level (',' :: (prettyMembers level (e :: es) ++ rest)) hj.1
        (endsNumber_comma _)
    simp only [prettyMembers, memberTokens, List.append_assoc, List.cons_append]
    exact .indent level (.token (spanToken?_quoted k _)
      (.token rfl (.space rfl (hvalue.trans (.token rfl hmembers)))))

end

end BlockStudio.Json
