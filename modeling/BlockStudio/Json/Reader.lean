import BlockStudio.Json.Lexer
import BlockStudio.Table

/-!
Reading JSON texts. Tokens are fed one at a time to a reader that holds the containers still open,
so nesting needs no recursion. `Json.read?` gives the tree of a well-formed text; `Json.readValue?`
also demands that every part has a value, and keeps of a repeated member the last one.
-/
namespace BlockStudio.Json

/-- A container that is still open, with what it holds so far in reverse. -/
inductive Open where
  | array (done : List Json)
  /-- An object whose member `name` is being read. -/
  | object (done : List (Option String × Json)) (name : Option String)

/-- What the reader expects next, inside the open containers. -/
inductive Reader where
  | value (stack : List Open)
  /-- An array has just opened: an element or its end follows. -/
  | element (stack : List Open)
  | key (done : List (Option String × Json)) (stack : List Open)
  /-- An object has just opened: a name or its end follows. -/
  | firstKey (stack : List Open)
  | colon (done : List (Option String × Json)) (name : Option String) (stack : List Open)
  /-- A value is complete: a comma or the end of the container follows. -/
  | complete (value : Json) (stack : List Open)

/-- A container inside `stack`, unless that is too deep. -/
def nested (stack : List Open) (container : Json) : Json :=
  if stack.length < depthLimit then container else .unreadable

/-- The object with the given members in reverse; a name without value makes the object
unreadable. -/
def ofMembers (done : List (Option String × Json)) : Json :=
  match done.reverse.mapM fun (k, j) => k.map (·, j) with
  | some members => .object members
  | none => .unreadable

namespace Reader

/-- The reader after the first token of a value. -/
def beginValue (stack : List Open) : Token → Option Reader
  | .null => some (.complete .null stack)
  | .bool b => some (.complete (.bool b) stack)
  | .number n => some (.complete (n.elim .unreadable .number) stack)
  | .text s => some (.complete (s.elim .unreadable .text) stack)
  | .openArray => some (.element stack)
  | .openObject => some (.firstKey stack)
  | _ => none

/-- The reader after one more token; none when the token may not stand there. -/
def feed : Reader → Token → Option Reader
  | .value stack, t => beginValue stack t
  | .element stack, .closeArray => some (.complete (nested stack (.array [])) stack)
  | .element stack, t => beginValue (.array [] :: stack) t
  | .key done stack, .text s => some (.colon done s stack)
  | .firstKey stack, .text s => some (.colon [] s stack)
  | .firstKey stack, .closeObject => some (.complete (nested stack (.object [])) stack)
  | .colon done name stack, .colon => some (.value (.object done name :: stack))
  | .complete v (.array done :: stack), .comma => some (.value (.array (v :: done) :: stack))
  | .complete v (.array done :: stack), .closeArray =>
    some (.complete (nested stack (.array (v :: done).reverse)) stack)
  | .complete v (.object done name :: stack), .comma => some (.key ((name, v) :: done) stack)
  | .complete v (.object done name :: stack), .closeObject =>
    some (.complete (nested stack (ofMembers ((name, v) :: done))) stack)
  | _, _ => none

/-- The tree, when one value is complete and nothing is open. -/
def result? : Reader → Option Json
  | .complete v [] => some v
  | _ => none

end Reader

/-- The tree of a list of tokens. -/
def ofTokens? (ts : List Token) : Option Json :=
  (ts.foldlM Reader.feed (.value [])).bind Reader.result?

def read? (source : String) : Option Json :=
  (lex source.toList).bind ofTokens?

mutual

/-- The tree with the members of each object in ascending order, the last of a repeated name
kept. -/
def settle : Json → Json
  | .array elements => .array (settleElements elements)
  | .object members => .object (Table.ofList (settleMembers members)).entries
  | j => j

def settleElements : List Json → List Json
  | [] => []
  | j :: rest => j.settle :: settleElements rest

def settleMembers : List (String × Json) → List (String × Json)
  | [] => []
  | (k, j) :: rest => (k, j.settle) :: settleMembers rest

end

/-- The value of a text in which every part has a value. -/
def readValue? (source : String) : Option Json :=
  (read? source).bind fun j => if j.isReadable then some j.settle else none

end BlockStudio.Json
