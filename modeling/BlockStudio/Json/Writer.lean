import BlockStudio.Json.Basic
import BlockStudio.Number.Style

/-!
JSON texts of trees: `compact` without any space and `pretty` with one member or element a line, two
blanks for each level. Only quotes, backslashes and control characters are escaped. A float that is
no finite number is `null`.
-/
namespace BlockStudio.Json
open BlockStudio.Number

def Number.text : Number → String
  | .nat n => digitText n
  | .negative n => "-" ++ digitText n
  | .double x => if x.isFinite then Style.document.double x else "null"
  | .single x => if x.isFinite then Style.documentSingle.single x else "null"

/-- The characters that stand for `c` inside quotes. -/
def escape (c : Char) : List Char :=
  match c with
  | '"' => ['\\', '"']
  | '\\' => ['\\', '\\']
  | '\x08' => ['\\', 'b']
  | '\x0c' => ['\\', 'f']
  | '\n' => ['\\', 'n']
  | '\r' => ['\\', 'r']
  | '\t' => ['\\', 't']
  | c =>
    if c.toNat < 0x20 then
      ['\\', 'u', '0', '0', Nat.digitChar (c.toNat / 16), Nat.digitChar (c.toNat % 16)]
    else [c]

def quoted (s : String) : List Char :=
  '"' :: (s.toList.flatMap escape ++ ['"'])

mutual

/-- The text without any space. -/
def compactChars : Json → List Char
  | .null => "null".toList
  | .bool b => (if b then "true" else "false").toList
  | .number n => n.text.toList
  | .text s => quoted s
  | .array elements => '[' :: (compactElements elements ++ [']'])
  | .object members => '\x7b' :: (compactMembers members ++ ['\x7d'])
  | .unreadable => "null".toList

def compactElements : List Json → List Char
  | [] => []
  | [j] => j.compactChars
  | j :: rest => j.compactChars ++ ',' :: compactElements rest

def compactMembers : List (String × Json) → List Char
  | [] => []
  | [(k, j)] => quoted k ++ ':' :: j.compactChars
  | (k, j) :: rest => quoted k ++ ':' :: j.compactChars ++ ',' :: compactMembers rest

end

/-- A line break and two blanks for each level. -/
def indent (level : Nat) : List Char := '\n' :: List.replicate (2 * level) ' '

mutual

/-- The text with one part a line, inside `level` containers. -/
def prettyChars (level : Nat) : Json → List Char
  | .null => "null".toList
  | .bool b => (if b then "true" else "false").toList
  | .number n => n.text.toList
  | .text s => quoted s
  | .array [] => ['[', ']']
  | .array (j :: rest) => '[' :: (prettyElements (level + 1) (j :: rest) ++ indent level ++ [']'])
  | .object [] => ['\x7b', '\x7d']
  | .object (e :: rest) =>
    '\x7b' :: (prettyMembers (level + 1) (e :: rest) ++ indent level ++ ['\x7d'])
  | .unreadable => "null".toList

def prettyElements (level : Nat) : List Json → List Char
  | [] => []
  | [j] => indent level ++ j.prettyChars level
  | j :: rest => indent level ++ j.prettyChars level ++ ',' :: prettyElements level rest

def prettyMembers (level : Nat) : List (String × Json) → List Char
  | [] => []
  | [(k, j)] => indent level ++ quoted k ++ [':', ' '] ++ j.prettyChars level
  | (k, j) :: rest =>
    indent level ++ quoted k ++ [':', ' '] ++ j.prettyChars level ++ ',' :: prettyMembers level rest

end

def compact (j : Json) : String := String.ofList j.compactChars

def pretty (j : Json) : String := String.ofList (j.prettyChars 0)

end BlockStudio.Json
