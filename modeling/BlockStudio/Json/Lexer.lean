import BlockStudio.Json.Number
import BlockStudio.Text.Blank

/-!
Tokens of a JSON text. `lex` splits a whole text into tokens, or fails where no token begins.
Escapes are resolved here: two halves of a surrogate pair make one character, and a half that stands
alone leaves the text without value. Each step of the lexer leaves a shorter text, which is why it
ends.
-/
namespace BlockStudio.Json
open BlockStudio.Number

inductive Token where
  | openArray
  | closeArray
  | openObject
  | closeObject
  | comma
  | colon
  | null
  | bool (b : Bool)
  /-- A number; none when it is out of range. -/
  | number (n : Option Number)
  /-- A quoted text; none when it holds half a surrogate pair. -/
  | text (s : Option String)
deriving Repr, DecidableEq

/-- A piece of a quoted text: a character, or one half of a surrogate pair. -/
inductive Piece where
  | char (c : Char)
  | half (unit : Nat)
deriving Repr, DecidableEq

/-- The value of four hexadecimal digits. -/
def hexValue? (cs : List Char) : Option Nat :=
  cs.foldlM (fun n c =>
    if c.isDigit then some (16 * n + (c.toNat - '0'.toNat))
    else if 'a' ≤ c ∧ c ≤ 'f' then some (16 * n + (c.toNat - 'a'.toNat + 10))
    else if 'A' ≤ c ∧ c ≤ 'F' then some (16 * n + (c.toNat - 'A'.toNat + 10))
    else none) 0

/-- The piece for a 16-bit unit. -/
def Piece.ofUnit (unit : Nat) : Piece :=
  if 0xD800 ≤ unit ∧ unit < 0xE000 then .half unit else .char (.ofNat unit)

/-- The character that a one-letter escape stands for. -/
def escaped? : Char → Option Char
  | '"' => some '"'
  | '\\' => some '\\'
  | '/' => some '/'
  | 'b' => some '\x08'
  | 'f' => some '\x0c'
  | 'n' => some '\n'
  | 'r' => some '\r'
  | 't' => some '\t'
  | _ => none

/-- The pieces of a quoted text up to its closing quote, and what follows the quote. -/
def spanText? : List Char → Option (List Piece × List Char)
  | [] => none
  | '"' :: rest => some ([], rest)
  | '\\' :: 'u' :: a :: b :: c :: d :: rest =>
    match hexValue? [a, b, c, d] with
    | none => none
    | some unit => (spanText? rest).map fun (ps, tail) => (.ofUnit unit :: ps, tail)
  | '\\' :: e :: rest =>
    match escaped? e with
    | none => none
    | some c => (spanText? rest).map fun (ps, tail) => (.char c :: ps, tail)
  | c :: rest =>
    if c = '\\' ∨ c.toNat < 0x20 then none
    else (spanText? rest).map fun (ps, tail) => (.char c :: ps, tail)

/-- Joins pieces to characters; a high half and the low half right after it make one character. -/
def joinPieces? : List Piece → Option (List Char)
  | [] => some []
  | .char c :: rest => (joinPieces? rest).map (c :: ·)
  | .half hi :: .half lo :: rest =>
    if hi < 0xDC00 ∧ 0xDC00 ≤ lo then
      (joinPieces? rest).map (.ofNat (0x10000 + (hi - 0xD800) * 0x400 + (lo - 0xDC00)) :: ·)
    else none
  | .half _ :: _ => none

theorem spanText?_length {cs tail : List Char} {ps : List Piece}
    (h : spanText? cs = some (ps, tail)) :
    tail.length < cs.length := by
  fun_induction spanText? cs generalizing ps with
  | case1 => cases h
  | case2 rest => simp_all
  | case3 => cases h
  | case4 a b c d rest unit hu ih =>
    obtain ⟨⟨qs, t⟩, hs, he⟩ := Option.map_eq_some_iff.1 h
    simp only [Prod.mk.injEq] at he
    have := ih (he.2 ▸ hs)
    simp only [List.length_cons]
    omega
  | case5 => cases h
  | case6 e rest hne c hc ih =>
    obtain ⟨⟨qs, t⟩, hs, he⟩ := Option.map_eq_some_iff.1 h
    grind
  | case7 => cases h
  | case8 c rest h1 h2 h3 h4 ih =>
    obtain ⟨⟨qs, t⟩, hs, he⟩ := Option.map_eq_some_iff.1 h
    grind

/-- A fraction: a point and at least one digit, or nothing. -/
def spanNumberFraction? : List Char → Option (List Char × List Char)
  | '.' :: rest =>
    let (digits, tail) := spanDigits rest
    if digits.isEmpty then none else some (digits, tail)
  | cs => some ([], cs)

/-- An exponent: the letter, an optional sign and at least one digit, or nothing. -/
def spanNumberExponent? : List Char → Option (Option Exponent × List Char)
  | [] => some (none, [])
  | c :: rest =>
    if c = 'e' ∨ c = 'E' then
      let (negative, body) := spanSign rest
      let (digits, tail) := spanDigits body
      if digits.isEmpty then none else some (some ⟨negative, digits⟩, tail)
    else some (none, c :: rest)

/-- A number without its sign, and what follows it. A leading zero stands alone before the point. -/
def spanNumeral? (cs : List Char) : Option (Numeral × List Char) := do
  let (whole, rest) := spanDigits cs
  if whole.isEmpty || (whole.head? == some '0' && whole.length ≠ 1) then none
  else
    let (fraction, rest) ← spanNumberFraction? rest
    let (exponent, tail) ← spanNumberExponent? rest
    some (⟨whole, fraction, exponent⟩, tail)

theorem spanSign_length (cs : List Char) : (spanSign cs).2.length ≤ cs.length := by
  unfold spanSign; split <;> simp

theorem spanDigits_shorter {cs : List Char} (h : (spanDigits cs).1 ≠ []) :
    (spanDigits cs).2.length < cs.length := by
  have := congrArg List.length (spanDigits_append cs)
  have := List.length_pos_iff.2 h
  simp only [List.length_append] at *
  omega

theorem spanNumberFraction?_length {cs ds tail : List Char}
    (h : spanNumberFraction? cs = some (ds, tail)) : tail.length ≤ cs.length := by
  unfold spanNumberFraction? at h
  split at h
  · rename_i rest
    have := spanDigits_length rest
    grind
  · grind

theorem spanNumberExponent?_length {cs tail : List Char} {e : Option Exponent}
    (h : spanNumberExponent? cs = some (e, tail)) : tail.length ≤ cs.length := by
  unfold spanNumberExponent? at h
  split at h
  · grind
  · rename_i c rest
    have := spanSign_length rest
    have := spanDigits_length (spanSign rest).2
    grind

theorem spanNumeral?_length {cs tail : List Char} {n : Numeral}
    (h : spanNumeral? cs = some (n, tail)) : tail.length < cs.length := by
  unfold spanNumeral? at h
  simp only [Option.bind_eq_bind] at h
  split at h
  · cases h
  · rename_i hw
    obtain ⟨⟨ds, r⟩, hf, h⟩ := Option.bind_eq_some_iff.1 h
    obtain ⟨⟨e, t⟩, he, h⟩ := Option.bind_eq_some_iff.1 h
    have h1 := spanNumberFraction?_length hf
    have h2 := spanNumberExponent?_length he
    have h3 : (spanDigits cs).1 ≠ [] := by
      intro hn
      simp [hn] at hw
    have h4 := spanDigits_shorter h3
    simp only [Option.some.injEq, Prod.mk.injEq] at h
    grind

def words : List (List Char × Token) :=
  [("null".toList, .null), ("true".toList, .bool true), ("false".toList, .bool false)]

/-- The literal word at the front, and what follows it. -/
def spanWord? (cs : List Char) : Option (Token × List Char) :=
  words.findSome? fun (word, t) => (Text.afterWord? word cs).map (t, ·)

theorem spanWord?_length {cs tail : List Char} {t : Token} (h : spanWord? cs = some (t, tail)) :
    tail.length < cs.length := by
  unfold spanWord? at h
  obtain ⟨⟨w, u⟩, hw, h⟩ := List.exists_of_findSome?_eq_some h
  have hne : 0 < w.length := by
    simp only [words, List.mem_cons, Prod.mk.injEq, List.not_mem_nil, or_false] at hw
    rcases hw with ⟨rfl, -⟩ | ⟨rfl, -⟩ | ⟨rfl, -⟩ <;> decide
  obtain ⟨rest, ha, he⟩ := Option.map_eq_some_iff.1 h
  simp only [Prod.mk.injEq] at he
  rw [Text.afterWord?_eq_some_iff.1 ha, ← he.2, List.length_append]
  omega

/-- The token at the front of a text that does not begin with a space, and what follows it. -/
def spanToken? : List Char → Option (Token × List Char)
  | [] => none
  | '[' :: rest => some (.openArray, rest)
  | ']' :: rest => some (.closeArray, rest)
  | '\x7b' :: rest => some (.openObject, rest)
  | '\x7d' :: rest => some (.closeObject, rest)
  | ',' :: rest => some (.comma, rest)
  | ':' :: rest => some (.colon, rest)
  | '"' :: rest =>
    (spanText? rest).map fun (ps, tail) => (.text ((joinPieces? ps).map String.ofList), tail)
  | '-' :: rest =>
    (spanNumeral? rest).map fun (n, tail) => (.number (Number.ofNumeral? true n), tail)
  | c :: rest =>
    if c.isDigit then (spanNumeral? (c :: rest)).map fun (n, tail) =>
      (.number (Number.ofNumeral? false n), tail)
    else spanWord? (c :: rest)

theorem spanToken?_length {cs tail : List Char} {t : Token} (h : spanToken? cs = some (t, tail)) :
    tail.length < cs.length := by
  unfold spanToken? at h
  split at h
  all_goals try grind
  · obtain ⟨⟨ps, r⟩, hs, h⟩ := Option.map_eq_some_iff.1 h
    have := spanText?_length hs
    grind
  · obtain ⟨⟨n, r⟩, hs, h⟩ := Option.map_eq_some_iff.1 h
    have := spanNumeral?_length hs
    grind
  · split at h
    · obtain ⟨⟨n, r⟩, hs, h⟩ := Option.map_eq_some_iff.1 h
      have := spanNumeral?_length hs
      grind
    · exact spanWord?_length h

/-- Whether a character may stand between tokens. -/
def isSpace (c : Char) : Bool := c = ' ' || c = '\n' || c = '\t' || c = '\r'

def lex (cs : List Char) : Option (List Token) :=
  match _h : spanToken? cs with
  | some (t, tail) => (lex tail).map (t :: ·)
  | none =>
    match cs with
    | [] => some []
    | c :: rest => if isSpace c then lex rest else none
termination_by cs.length
decreasing_by
  · exact spanToken?_length _h
  · simp

end BlockStudio.Json
