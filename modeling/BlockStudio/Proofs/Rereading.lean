import BlockStudio.Json.Reader
import BlockStudio.Proofs.Tokens

/-!
Reading back what was printed. The reader takes the tokens of a tree, inside any containers that are
open, and has the tree complete, but for the containers that nest deeper than the limit, which have
no value. Only the numbers may come back in another form: a single is printed with its own digits
and read as a double.
-/
namespace BlockStudio.Json

mutual

/-- The tree with each number as it is read from its text. -/
def reread : Json → Json
  | .number n => .number n.reread
  | .array elements => .array (rereadElements elements)
  | .object members => .object (rereadMembers members)
  | .unreadable => .null
  | j => j

def rereadElements : List Json → List Json
  | [] => []
  | j :: rest => j.reread :: rereadElements rest

def rereadMembers : List (String × Json) → List (String × Json)
  | [] => []
  | (k, j) :: rest => (k, j.reread) :: rereadMembers rest

end

mutual

/-- The tree as it is read inside `level` containers: one that nests too deep has no value. -/
def clip (level : Nat) : Json → Json
  | .number n => .number n.reread
  | .array elements =>
    if level < depthLimit then .array (clipElements (level + 1) elements) else .unreadable
  | .object members =>
    if level < depthLimit then .object (clipMembers (level + 1) members) else .unreadable
  | .unreadable => .null
  | j => j

def clipElements (level : Nat) : List Json → List Json
  | [] => []
  | j :: rest => j.clip level :: clipElements level rest

def clipMembers (level : Nat) : List (String × Json) → List (String × Json)
  | [] => []
  | (k, j) :: rest => (k, j.clip level) :: clipMembers level rest

end

mutual

/-- How many containers nest at the deepest place of the tree. -/
def depth : Json → Nat
  | .array elements => elementsDepth elements + 1
  | .object members => membersDepth members + 1
  | _ => 0

def elementsDepth : List Json → Nat
  | [] => 0
  | j :: rest => max j.depth (elementsDepth rest)

def membersDepth : List (String × Json) → Nat
  | [] => 0
  | (_, j) :: rest => max j.depth (membersDepth rest)

end

namespace Reader

/-- The reader `r` takes the tokens `ts` and is `r'` then. -/
def Takes (r : Reader) (ts : List Token) (r' : Reader) : Prop :=
  ts.foldlM feed r = some r'

theorem Takes.refl (r : Reader) : r.Takes [] r := rfl

theorem Takes.token {r middle r' : Reader} {t : Token} {ts : List Token}
    (ht : r.feed t = some middle) (h : middle.Takes ts r') : r.Takes (t :: ts) r' := by
  rw [Takes, List.foldlM_cons, ht]
  exact h

theorem Takes.trans {r middle r' : Reader} {ts us : List Token} (h : r.Takes ts middle)
    (h' : middle.Takes us r') :
    r.Takes (ts ++ us) r' := by
  rw [Takes] at h h' ⊢
  rw [List.foldlM_append, h]
  exact h'

end Reader

/-- The text of a value does not begin with the end of an array. -/
theorem tokens_eq_cons (j : Json) : ∃ t ts, j.tokens = t :: ts ∧ t ≠ .closeArray := by
  cases j <;> exact ⟨_, _, rfl, nofun⟩

theorem elementTokens_eq_cons (j : Json) (js : List Json) :
    ∃ t ts, elementTokens (j :: js) = t :: ts ∧ t ≠ .closeArray := by
  obtain ⟨t, ts, htokens, ht⟩ := tokens_eq_cons j
  cases js with
  | nil => exact ⟨t, ts, htokens, ht⟩
  | cons k js =>
    exact ⟨t, ts ++ .comma :: elementTokens (k :: js),
      by rw [elementTokens, htokens]; rfl; nofun, ht⟩

theorem memberTokens_eq_cons (k : String) (j : Json) (es : List (String × Json)) :
    ∃ ts, memberTokens ((k, j) :: es) = .text (some k) :: ts := by
  cases es with
  | nil => exact ⟨_, rfl⟩
  | cons e es => exact ⟨_, rfl⟩

/-- The first element of an array is read as any other. -/
theorem Reader.Takes.firstElement {stack : List Open} {r : Reader} {t : Token} {ts : List Token}
    (h : (Reader.value (.array [] :: stack)).Takes (t :: ts) r) (ht : t ≠ .closeArray) :
    (Reader.element stack).Takes (t :: ts) r := by
  have hfeed : (Reader.element stack).feed t = (Reader.value (.array [] :: stack)).feed t := by
    cases t <;> first | rfl | exact absurd rfl ht
  rw [Takes, List.foldlM_cons] at h ⊢
  rwa [hfeed]

theorem Reader.Takes.firstMember {stack : List Open} {r : Reader} {k : String} {ts : List Token}
    (h : (Reader.key [] stack).Takes (.text (some k) :: ts) r) :
    (Reader.firstKey stack).Takes (.text (some k) :: ts) r := h

theorem ofMembers_map_some (done : List (String × Json)) :
    ofMembers (done.map fun e => (some e.1, e.2)) = .object done.reverse := by
  have hall : ∀ {f : Option String × Json → Option (String × Json)} (es : List (String × Json)),
      (∀ e : String × Json, f (some e.1, e.2) = some e) →
        (es.map fun e => (some e.1, e.2)).mapM f = some es := by
    intro f es hf
    induction es with
    | nil => rfl
    | cons e es ih => rw [List.map_cons, List.mapM_cons, hf, ih]; rfl
  rw [ofMembers, ← List.map_reverse, hall _ fun _ => rfl]

theorem feed_closeArray (v : Json) (done : List Json) (stack : List Open) :
    (Reader.complete v (.array done :: stack)).feed .closeArray =
      some (.complete (nested stack (.array (done.reverse ++ [v]))) stack) := by
  rw [Reader.feed, List.reverse_cons]

theorem feed_closeObject (k : String) (v : Json) (done : List (String × Json)) (stack : List Open) :
    (Reader.complete v (.object (done.map fun e => (some e.1, e.2)) (some k) :: stack)).feed
      .closeObject =
      some (.complete (nested stack (.object (done.reverse ++ [(k, v)]))) stack) := by
  have hmembers := ofMembers_map_some ((k, v) :: done)
  rw [List.map_cons] at hmembers
  rw [Reader.feed, hmembers, List.reverse_cons]

mutual

/-- The reader takes the tokens of a tree and has the tree, as far as it is not nested too deep. -/
theorem takes_tokens : ∀ (j : Json) (stack : List Open),
    (Reader.value stack).Takes j.tokens (.complete (j.clip stack.length) stack)
  | .null, _ => rfl
  | .bool _, _ => rfl
  | .number _, _ => rfl
  | .text _, _ => rfl
  | .unreadable, _ => rfl
  | .array [], _ => .token rfl (.token rfl (.refl _))
  | .array (j :: js), stack => by
    obtain ⟨t, ts, htokens, ht⟩ := elementTokens_eq_cons j js
    have helements := takes_elementTokens (j :: js) [] stack (List.cons_ne_nil _ _)
    rw [htokens] at helements
    rw [tokens, htokens]
    exact .token rfl (helements.firstElement ht)
  | .object [], _ => .token rfl (.token rfl (.refl _))
  | .object ((k, j) :: es), stack => by
    obtain ⟨ts, htokens⟩ := memberTokens_eq_cons k j es
    have hmembers := takes_memberTokens ((k, j) :: es) [] stack (List.cons_ne_nil _ _)
    rw [htokens] at hmembers
    rw [tokens, htokens]
    exact .token rfl hmembers.firstMember

theorem takes_elementTokens : ∀ (js done : List Json) (stack : List Open), js ≠ [] →
    (Reader.value (.array done :: stack)).Takes (elementTokens js ++ [.closeArray])
      (.complete (nested stack (.array (done.reverse ++ clipElements (stack.length + 1) js))) stack)
  | [], _, _, hne => absurd rfl hne
  | [j], done, stack, _ => by
    have hvalue := takes_tokens j (.array done :: stack)
    exact hvalue.trans (.token (feed_closeArray (j.clip (stack.length + 1)) done stack) (.refl _))
  | j :: k :: js, done, stack, _ => by
    have hvalue := takes_tokens j (.array done :: stack)
    have helements :=
      takes_elementTokens (k :: js) (j.clip (stack.length + 1) :: done) stack (List.cons_ne_nil _ _)
    rw [List.reverse_cons, List.append_assoc] at helements
    rw [elementTokens, List.append_assoc, List.cons_append]
    · exact hvalue.trans (.token rfl helements)
    · simp

theorem takes_memberTokens : ∀ (es done : List (String × Json)) (stack : List Open), es ≠ [] →
    (Reader.key (done.map fun e => (some e.1, e.2)) stack).Takes (memberTokens es ++ [.closeObject])
      (.complete (nested stack (.object (done.reverse ++ clipMembers (stack.length + 1) es))) stack)
  | [], _, _, hne => absurd rfl hne
  | [(k, j)], done, stack, _ => by
    have hvalue := takes_tokens j (.object (done.map fun e => (some e.1, e.2)) (some k) :: stack)
    have hclose := feed_closeObject k (j.clip (stack.length + 1)) done stack
    exact .token rfl (.token rfl (hvalue.trans (.token hclose (.refl _))))
  | (k, j) :: e :: es, done, stack, _ => by
    have hvalue := takes_tokens j (.object (done.map fun e => (some e.1, e.2)) (some k) :: stack)
    have hmembers :=
      takes_memberTokens (e :: es) ((k, j.clip (stack.length + 1)) :: done) stack
        (List.cons_ne_nil _ _)
    rw [List.reverse_cons, List.append_assoc] at hmembers
    rw [memberTokens, List.cons_append, List.cons_append, List.append_assoc, List.cons_append]
    · exact .token rfl (.token rfl (hvalue.trans (.token rfl hmembers)))
    · simp

end

mutual

/-- Nothing of a tree is lost that is not nested too deep. -/
theorem clip_of_depth_le :
    ∀ {j : Json} {level : Nat}, level + j.depth ≤ depthLimit → j.clip level = j.reread
  | .null, _, _ | .bool _, _, _ | .number _, _, _ | .text _, _, _ | .unreadable, _, _ => rfl
  | .array js, level, h => by
    simp only [depth] at h
    rw [clip, if_pos (by omega), clipElements_of_depth_le (by omega), reread]
  | .object es, level, h => by
    simp only [depth] at h
    rw [clip, if_pos (by omega), clipMembers_of_depth_le (by omega), reread]

theorem clipElements_of_depth_le :
    ∀ {js : List Json} {level : Nat}, level + elementsDepth js ≤ depthLimit →
    clipElements level js = rereadElements js
  | [], _, _ => rfl
  | j :: js, level, h => by
    simp only [elementsDepth] at h
    rw [clipElements, rereadElements, clip_of_depth_le (by omega),
      clipElements_of_depth_le (by omega)]

theorem clipMembers_of_depth_le :
    ∀ {es : List (String × Json)} {level : Nat}, level + membersDepth es ≤ depthLimit →
    clipMembers level es = rereadMembers es
  | [], _, _ => rfl
  | (k, j) :: es, level, h => by
    simp only [membersDepth] at h
    rw [clipMembers, rereadMembers, clip_of_depth_le (by omega), clipMembers_of_depth_le (by omega)]

end

mutual

/-- Each part of a tree has a value just if none nests too deep. -/
theorem isReadable_clip_iff : ∀ (j : Json) {level : Nat}, level ≤ depthLimit →
    ((j.clip level).isReadable = true ↔ level + j.depth ≤ depthLimit)
  | .null, _, h | .bool _, _, h | .number _, _, h | .text _, _, h | .unreadable, _, h =>
    iff_of_true rfl h
  | .array js, level, h => by
    rw [clip, depth]
    split
    · rename_i hlevel
      rw [isReadable, elementsReadable_clip_iff js hlevel]
      omega
    · rename_i hlevel
      exact iff_of_false Bool.noConfusion (by omega)
  | .object es, level, h => by
    rw [clip, depth]
    split
    · rename_i hlevel
      rw [isReadable, membersReadable_clip_iff es hlevel]
      omega
    · rename_i hlevel
      exact iff_of_false Bool.noConfusion (by omega)

theorem elementsReadable_clip_iff : ∀ (js : List Json) {level : Nat}, level ≤ depthLimit →
    (elementsReadable (clipElements level js) = true ↔ level + elementsDepth js ≤ depthLimit)
  | [], _, h => iff_of_true rfl h
  | j :: js, level, h => by
    rw [clipElements, elementsReadable, Bool.and_eq_true, isReadable_clip_iff j h,
      elementsReadable_clip_iff js h, elementsDepth]
    omega

theorem membersReadable_clip_iff : ∀ (es : List (String × Json)) {level : Nat}, level ≤ depthLimit →
    (membersReadable (clipMembers level es) = true ↔ level + membersDepth es ≤ depthLimit)
  | [], _, h => iff_of_true rfl h
  | (_, j) :: es, level, h => by
    rw [clipMembers, membersReadable, Bool.and_eq_true, isReadable_clip_iff j h,
      membersReadable_clip_iff es h, membersDepth]
    omega

end

/-- The tree of a text that was printed. -/
theorem read?_pretty_clip {j : Json} (hlegible : j.Legible) : read? j.pretty = some (j.clip 0) := by
  have hlex : lex (j.prettyChars 0) = some j.tokens := by
    have hlexes := lexes_prettyChars j 0 [] hlegible endsNumber_nil
    rw [Lexes, List.append_nil, lex_nil, Option.map_some, List.append_nil] at hlexes
    exact hlexes
  have htakes := takes_tokens j []
  rw [Reader.Takes] at htakes
  rw [read?, pretty, String.toList_ofList, hlex, Option.bind_some, ofTokens?, htakes,
    Option.bind_some, Reader.result?]
  rfl

/-- A printed tree is read back, up to the form of its numbers. -/
theorem read?_pretty {j : Json} (hlegible : j.Legible) (hdepth : j.depth ≤ depthLimit) :
    read? j.pretty = some j.reread := by
  rw [read?_pretty_clip hlegible, clip_of_depth_le (by omega)]

/-- A printed tree has a value, in which the members of each object are in order, just if it does
not nest too deep. -/
theorem readValue?_pretty_eq {j : Json} (hlegible : j.Legible) :
    readValue? j.pretty = if j.depth ≤ depthLimit then some j.reread.settle else none := by
  have hreadable := isReadable_clip_iff j (Nat.zero_le depthLimit)
  rw [Nat.zero_add] at hreadable
  simp only [readValue?, read?_pretty_clip hlegible, Option.bind_some, hreadable]
  split
  · rename_i hdepth
    rw [clip_of_depth_le (by omega)]
  · rfl

theorem readValue?_pretty {j : Json} (hlegible : j.Legible) (hdepth : j.depth ≤ depthLimit) :
    readValue? j.pretty = some j.reread.settle := by
  rw [readValue?_pretty_eq hlegible, if_pos hdepth]

end BlockStudio.Json
