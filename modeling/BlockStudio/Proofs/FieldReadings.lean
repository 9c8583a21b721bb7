import BlockStudio.Proofs.Defaults
import BlockStudio.Proofs.EditorRuns

/-!
Readings of fields. The editor decides which values a field accepts, and a compiled block has an
operand for each of its fields. Main statement: in every run of the editor, the operand conveys each
value that the field accepts, but for an object whose id begins or ends with a blank: such an id is
accepted as it is and read without its blanks.
-/
namespace BlockStudio

namespace Text

theorem dropTail_eq_self {α : Type} {p : α → Bool} {cs : List α} (h : ∀ c ∈ cs, p c = false) :
    dropTail p cs = cs := by
  induction cs with
  | nil => rfl
  | cons c cs ih =>
    obtain ⟨hc, hcs⟩ := List.forall_mem_cons.mp h
    rw [dropTail_cons, ih hcs, hc, Bool.and_false, if_neg Bool.false_ne_true]

theorem trim_eq_self {s : String} (h : ∀ c ∈ s.toList, isBlank c = false) : trim s = s := by
  have hfront : s.toList.dropWhile isBlank = s.toList := by
    cases hs : s.toList with
    | nil => rfl
    | cons c cs => exact List.dropWhile_cons_of_neg (by simp [h c (by simp [hs])])
  rw [trim, trimChars, hfront, dropTail_eq_self h, String.ofList_toList]

end Text

namespace Color

theorem isBlank_of_hexDigit? {c : Char} (h : (hexDigit? c).isSome = true) :
    Text.isBlank c = false := by
  have hrange : 48 ≤ c.toNat ∧ c.toNat ≤ 102 := by
    simp only [hexDigit?, Char.isDigit, Char.le_def, UInt32.le_iff_toNat_le,
      ge_iff_le, Bool.and_eq_true, decide_eq_true_eq] at h
    change (if 48 ≤ c.toNat ∧ c.toNat ≤ 57 then _ else if 97 ≤ c.toNat ∧ c.toNat ≤ 102 then _ else
      if 65 ≤ c.toNat ∧ c.toNat ≤ 70 then _ else _ : Option Nat).isSome = true at h
    grind
  simp only [Text.isBlank, Text.blankRanges, List.any_cons, List.any_nil, Bool.or_false,
    Bool.or_eq_false_iff, Bool.and_eq_false_iff, decide_eq_false_iff_not]
  omega

theorem isBlank_of_mapM_hexDigit? {cs : List Char} {ds : List Nat}
    (h : cs.mapM hexDigit? = some ds) :
    ∀ c ∈ cs, Text.isBlank c = false := by
  induction cs generalizing ds with
  | nil => simp
  | cons c cs ih =>
    rw [List.mapM_cons] at h
    obtain ⟨d, hd, h⟩ := Option.bind_eq_some_iff.mp h
    obtain ⟨ds', hds', -⟩ := Option.bind_eq_some_iff.mp h
    exact List.forall_mem_cons.mpr ⟨isBlank_of_hexDigit? (by rw [hd]; rfl), ih hds'⟩

theorem isBlank_of_readHex? {cs : List Char} (h : (readHex? cs).isSome = true) :
    ∀ c ∈ cs, Text.isBlank c = false := by
  obtain ⟨n, hn⟩ := Option.isSome_iff_exists.mp h
  simp only [readHex?, Option.ite_none_left_eq_some, Option.map_eq_some_iff] at hn
  obtain ⟨-, ds, hds, -⟩ := hn
  have hbody := isBlank_of_mapM_hexDigit? hds
  split at hbody
  · exact List.forall_mem_cons.mpr ⟨by decide, hbody⟩
  · exact hbody

/-- A text of a colour has no blanks. -/
theorem trim_of_isOk {s : String} (h : (ofText s).isOk = true) : Text.trim s = s := by
  refine Text.trim_eq_self ?_
  unfold ofText at h
  extract_lets cs read at h
  have hread : (readHex? cs).isSome = true := by
    cases hnone : readHex? cs with
    | none => simp only [read, hnone] at h; split at h <;> contradiction
    | some n => rfl
  have hcs : s.toList = '#' :: cs ∨ s.toList = cs := by
    simp only [cs]
    split
    · rename_i hs
      exact .inl hs
    · exact .inr rfl
  rcases hcs with hcs | hcs <;> rw [hcs]
  · exact List.forall_mem_cons.mpr ⟨by decide, isBlank_of_readHex? hread⟩
  · exact isBlank_of_readHex? hread

end Color

namespace Script

def Condition.operands (c : Condition) : List (String × Reading) :=
  [("var", .text c.variableName), ("op", .comparison c.comparison), ("value", .number c.value)]

/-- What an effect works with, under the keys of the fields that say it. -/
def Effect.operands : Effect → List (String × Reading)
  | .move object dx dy => [("object", .text object), ("dx", .number dx), ("dy", .number dy)]
  | .teleport object x y => [("object", .text object), ("x", .number x), ("y", .number y)]
  | .setVisible object _ => [("object", .text object)]
  | .destroy object => [("object", .text object)]
  | .setColor object color => [("object", .text object), ("color", .text color)]
  | .setVariable name value => [("var", .text name), ("value", .number value)]
  | .changeVariable name delta => [("var", .text name), ("delta", .number delta)]
  | .addScore amount => [("amount", .number amount)]
  | .setScore value => [("value", .number value)]
  | .showMessage text seconds => [("text", .text text), ("seconds", .number seconds)]
  | .endGame => []

def Action.operands : Action → List (String × Reading)
  | .effect e => e.operands
  | .wait seconds => [("seconds", .number seconds)]
  | .call function => [("name", .text function)]
  | .whenTrue condition _ => condition.operands
  | .choose condition _ _ => condition.operands
  | .chance percent _ => [("chance", .number percent)]
  | .repeatTimes times _ => [("times", .count times)]
  | .repeatWhile condition _ => condition.operands

def Trigger.operands : Trigger → List (String × Reading)
  | .start => []
  | .timer seconds => [("seconds", .number seconds)]
  | .touch object => [("object", .text object)]
  | .key name => [("key", .text name)]
  | .variableChanged name => [("var", .text name)]
  | .score comparison threshold => [("op", .comparison comparison), ("value", .number threshold)]
  | .function name => [("name", .text name)]

/-- What a number means for a block of a kind: no time is negative, and a loop has a whole number of
rounds. -/
def amountOf (k : BlockKind) (x : Float) : Reading :=
  match k with
  | .onTimer => .number (positivePart x)
  | .wait => .number (positivePart x)
  | .repeatN => .count (Number.toNatSaturating (positivePart x))
  | _ => .number x

/-- How a field of a kind of blocks is read says its own kind. -/
theorem readingOf_eq {k : BlockKind} {f : Field} (hf : f ∈ k.definition.fields) (value : String) :
    readingOf k f.key value = match f.kind with
      | .number => amountOf k (numberOf value)
      | .text => .text (if f.key = "text" then value else Text.trim value)
      | .dropdown options =>
        if options = BlockKind.keyOptions then .text (Key.normalize value)
        else .comparison (Comparison.read? value)
      | .color => .text (Text.trim value)
      | .objectRef => .text (Text.trim value)
      | .variableRef => .text (Text.trim value) := by
  cases k <;>
    simp only [BlockKind.definition, BlockKind.comparison, List.mem_cons, List.not_mem_nil,
      or_false] at hf <;> first
    | contradiction
    | rcases hf with rfl | rfl | rfl <;> rfl

section
variable {ι : Type} {k : BlockKind}

theorem operands_of_ofType? {b : Block ι} {t : Trigger} (h : Trigger.ofType? b k.name = some t) :
    t.operands = k.definition.fields.map fun f => (f.key, readingOf k f.key (b.value f.key)) := by
  cases k <;> cases h <;> rfl

theorem operands_conditionOf (b : Block ι) :
    (conditionOf b).operands =
      [("var", .text (nameIn b "var")), ("op", .comparison (Comparison.read? (b.value "op"))),
        ("value", .number (number b "value"))] := by
  simp only [conditionOf, Condition.operands]

theorem operands_of_actionOf? {b : Block ι} {body otherwise : List Action} {a : Action}
    (h : actionOf? b body otherwise k.name = some a) :
    a.operands = k.definition.fields.map fun f => (f.key, readingOf k f.key (b.value f.key)) := by
  cases k <;> cases h
  case ifCond => exact operands_conditionOf b
  case ifElse => exact operands_conditionOf b
  case repeatWhile => exact operands_conditionOf b
  all_goals rfl

theorem lookup_map_of_mem {α : Type} {fields : List Field}
    (hkeys : (fields.map (·.key)).Nodup) {f : Field} (hf : f ∈ fields) (reading : Field → α) :
    (fields.map fun f => (f.key, reading f)).lookup f.key = some (reading f) := by
  induction fields with
  | nil => contradiction
  | cons g fields ih =>
    rw [List.map_cons, List.nodup_cons] at hkeys
    rw [List.map_cons, List.lookup_cons]
    rcases List.mem_cons.mp hf with rfl | hmem
    · rw [beq_self_eq_true]
    · have hne : f.key ≠ g.key := fun heq => hkeys.1 (heq ▸ List.mem_map_of_mem hmem)
      rw [beq_false_of_ne hne]
      exact ih hkeys.2 hmem

/-- The operand that a compiled block has for a field: in its trigger, if it is a hat, and else in
its action. -/
def operand? (b : Block ι) (key : String) : Option Reading :=
  (((Trigger.ofBlock? b).map Trigger.operands).or ((compileBlock? b).map Action.operands)).bind
    (List.lookup key)

/-- A compiled block has an operand for each of its fields. -/
theorem operand?_eq {b : Block ι} (hb : b.type = k.name) {f : Field}
    (hf : f ∈ k.definition.fields) :
    operand? b f.key = some (readingOf k f.key (b.value f.key)) := by
  obtain ⟨id, type, values, children, elseChildren⟩ := b
  obtain rfl : type = k.name := hb
  have hkeys : (k.definition.fields.map (·.key)).Nodup := by cases k <;> decide
  simp only [operand?, Trigger.ofBlock?, compileBlock?]
  cases hhat : k.definition.shape.isHat with
  | true =>
    obtain ⟨t, ht⟩ := Option.isSome_iff_exists.mp ((isSome_ofType? k _).trans hhat)
    rw [ht, Option.map_some, Option.some_or, Option.bind_some, operands_of_ofType? ht,
      lookup_map_of_mem hkeys hf]
  | false =>
    obtain ⟨a, ha⟩ :=
      Option.isSome_iff_exists.mp ((isSome_actionOf? k _ _ _).trans (congrArg not hhat))
    rw [ofType?_of_not_isHat hhat, Option.map_none, Option.none_or, ha,
      Option.map_some, Option.bind_some, operands_of_actionOf? ha, lookup_map_of_mem hkeys hf]

end

/-- What a script takes from a value is what the value says for a field of this kind. -/
def Conveys (k : BlockKind) (kind : FieldKind) (value : String) (r : Reading) : Prop :=
  match kind with
  | .number =>
    ∃ x, Number.readDouble? (Text.trim value) = some x ∧ x.isFinite = true ∧
      numberOf value = x ∧ r = amountOf k x
  | .text => r = .text value ∨ r = .text (Text.trim value)
  | .dropdown options =>
    if options = BlockKind.keyOptions then r = .text value
    else ∃ c : Comparison, c.symbol = value ∧ r = .comparison (some c)
  | .color => (Color.ofText value).isOk = true ∧ r = .text value
  | .objectRef => r = .text value
  | .variableRef => r = .text value

theorem normalize_of_mem_keyOptions {value : String} (h : value ∈ BlockKind.keyOptions) :
    Key.normalize value = value := by
  have hall : ∀ value ∈ BlockKind.keyOptions, Key.normalize value = value := by decide +kernel
  exact hall value h

theorem exists_symbol_of_mem_compareOptions {value : String}
    (h : value ∈ BlockKind.compareOptions) :
    ∃ c : Comparison, c.symbol = value ∧ Comparison.read? value = some c := by
  have hall : ∀ value ∈ BlockKind.compareOptions,
      (Comparison.read? value).map Comparison.symbol = some value := by
    decide +kernel
  obtain ⟨c, hread, hsymbol⟩ := Option.map_eq_some_iff.mp (hall value h)
  exact ⟨c, hsymbol, hread⟩

/-- The dropdown fields of the catalogue hold keys or comparisons. -/
theorem options_of_mem_fields {k : BlockKind} {f : Field} (hf : f ∈ k.definition.fields)
    {options : List String} (hkind : f.kind = .dropdown options) :
    options = BlockKind.keyOptions ∨ options = BlockKind.compareOptions := by
  cases k <;>
    simp only [BlockKind.definition, BlockKind.comparison, List.mem_cons, List.not_mem_nil,
      or_false] at hf <;>
    first
    | contradiction
    | rcases hf with rfl | rfl | rfl <;> cases hkind <;> decide

end Script

namespace Editor
open Script

variable {ι : Type}

/-- In every run of the editor, a value that a field of a block accepts is conveyed to the action or
the trigger that the block compiles to, unless it names an object whose id begins or ends with a
blank; of such an id the script has the rest. -/
theorem run_accepts_what_scripts_read (config : EditorConfig) (ops : List Operation)
    {k : BlockKind} {b : Block ι} (hb : b.type = k.name) {f : Field} (hf : f ∈ k.definition.fields)
    (haccepts : f.accepts (b.value f.key)
      (run config ops).objects (run config ops).graph.variableNames = true) :
    ∃ r, operand? b f.key = some r ∧
      (Conveys k f.kind (b.value f.key) r ↔
        (f.kind = .objectRef → Text.trim (b.value f.key) = b.value f.key)) ∧
      (f.kind = .objectRef → r = .text (Text.trim (b.value f.key))) := by
  refine ⟨_, operand?_eq hb hf, ?_⟩
  rw [readingOf_eq hf]
  unfold Field.accepts at haccepts
  generalize b.value f.key = value at haccepts ⊢
  cases hkind : f.kind with
  | number =>
    simp only [hkind, Option.any_eq_true] at haccepts
    obtain ⟨x, hx, hfinite⟩ := haccepts
    have hnumber : numberOf value = x := by
      rw [numberOf, hx, Option.filter_some_pos hfinite, Option.getD_some]
    simp only [Conveys, reduceCtorEq, false_imp_iff, iff_true, and_true]
    exact ⟨x, hx, hfinite, hnumber, by rw [hnumber]⟩
  | text =>
    simp only [Conveys, reduceCtorEq, false_imp_iff, iff_true, and_true]
    split
    · exact .inl rfl
    · exact .inr rfl
  | dropdown options =>
    simp only [hkind, List.contains_iff_mem] at haccepts
    simp only [Conveys, reduceCtorEq, false_imp_iff, iff_true, and_true]
    rcases options_of_mem_fields hf hkind with rfl | rfl
    · rw [if_pos rfl, if_pos rfl, normalize_of_mem_keyOptions haccepts]
    · obtain ⟨c, hsymbol, hread⟩ := exists_symbol_of_mem_compareOptions haccepts
      have hoptions : BlockKind.compareOptions ≠ BlockKind.keyOptions := by decide
      rw [if_neg hoptions, if_neg hoptions, hread]
      exact ⟨c, hsymbol, rfl⟩
  | color =>
    simp only [hkind] at haccepts
    simp only [Conveys, reduceCtorEq, false_imp_iff, iff_true, and_true]
    exact ⟨haccepts, by rw [Color.trim_of_isOk haccepts]⟩
  | objectRef => simp [Conveys]
  | variableRef =>
    simp only [hkind, Bool.or_eq_true, String.isEmpty_iff, List.contains_iff_mem] at haccepts
    simp only [Conveys, reduceCtorEq, false_imp_iff, iff_true, and_true]
    rcases haccepts with rfl | hname
    · rfl
    · rw [(WellFormed.run config ops).graph.variablesFit.trimmed value hname]

/-- A block that shows an object. -/
def showing (object : String) : Node := ⟨(), "show_obj", .ofList [("object", object)], none, none⟩

theorem run_accepts_showing_box :
    (Field.objectId "object").accepts "box" (run .standard [.setObjects ["box"]]).objects
        (run .standard [.setObjects ["box"]]).graph.variableNames = true ∧
      ∃ r, operand? (showing "box") "object" = some r ∧ Conveys .showObj .objectRef "box" r := by
  have haccepts : (Field.objectId "object").accepts "box"
      (run .standard [.setObjects ["box"]]).objects
      (run .standard [.setObjects ["box"]]).graph.variableNames = true := by decide +kernel
  obtain ⟨r, hr, hconveys, -⟩ :=
    run_accepts_what_scripts_read .standard [.setObjects ["box"]] (k := .showObj)
      (b := showing "box") rfl (f := .objectId "object") (by decide) haccepts
  exact ⟨haccepts, r, hr, hconveys.mpr fun _ => by decide⟩

/-- The id of an object with blanks around it is accepted, but the script has another one. -/
theorem run_accepts_other_object_than_read :
    (Field.objectId "object").accepts " box " (run .standard [.setObjects [" box "]]).objects
        (run .standard [.setObjects [" box "]]).graph.variableNames = true ∧
      ∀ r, operand? (showing " box ") "object" = some r →
        r = .text "box" ∧ ¬Conveys .showObj .objectRef " box " r := by
  refine ⟨by decide +kernel, fun r hr => ?_⟩
  have hread : operand? (showing " box ") "object" = some (.text "box") := by decide +kernel
  obtain rfl := Option.some.inj (hr.symm.trans hread)
  exact ⟨rfl, by simp [Conveys]⟩

end Editor

end BlockStudio
