import BlockStudio.Document.Project
import BlockStudio.Number.Counter
import BlockStudio.Proofs.Tokens

/-!
Whole numbers that were read. A whole number that is too long for 64 bits is read as a float, so the
tree of a text holds no greater ones, however the text is written. Main statement: the ids of a
document that was read fit 64 bits.
-/
namespace BlockStudio.Json
open BlockStudio.Number

/-! ### Tokens -/

/-- A number that is kept as a whole number fits 64 bits. -/
def Number.FitsWord : Number → Prop
  | .nat n => n ≤ wordMax
  | _ => True

namespace Number

theorem takeWhole_le {n : Nat} (h : n ≤ wordMax) (cs : List Char) :
    (takeWhole n cs).1 ≤ wordMax := by
  induction cs generalizing n with
  | nil => exact h
  | cons c cs ih =>
    rw [takeWhole]
    split
    · rename_i hfits
      exact ih hfits
    · exact h

theorem fitsWord_ofNumeral? {negative : Bool} {numeral : Numeral} {n : Number}
    (h : ofNumeral? negative numeral = some n) : n.FitsWord := by
  have hwhole := takeWhole_le (Nat.zero_le wordMax) numeral.whole
  unfold ofNumeral? at h
  dsimp only at h
  split at h
  · split at h
    · obtain rfl := Option.some.inj h
      exact hwhole
    · split at h <;> obtain rfl := Option.some.inj h <;> trivial
  · obtain ⟨x, -, rfl⟩ := Option.map_eq_some_iff.mp h
    trivial

end Number

def Token.FitsWord : Token → Prop
  | .number (some n) => n.FitsWord
  | _ => True

theorem fitsWord_spanToken? {cs tail : List Char} {t : Token} (h : spanToken? cs = some (t, tail)) :
    t.FitsWord := by
  cases t with
  | number n? =>
    cases n? with
    | none => trivial
    | some n =>
      obtain ⟨body, m, -, -, hnumber⟩ | ⟨c, body, m, -, -, -, hnumber⟩ := spanToken?_eq_number h
      · exact Number.fitsWord_ofNumeral? hnumber
      · exact Number.fitsWord_ofNumeral? hnumber
  | _ => trivial

theorem fitsWord_lex {cs : List Char} {ts : List Token} (h : lex cs = some ts) :
    ∀ t ∈ ts, t.FitsWord := by
  fun_induction lex cs generalizing ts with
  | case1 cs t tail hspan ih =>
    obtain ⟨rest, hrest, rfl⟩ := Option.map_eq_some_iff.mp h
    exact List.forall_mem_cons.mpr ⟨fitsWord_spanToken? hspan, ih hrest⟩
  | case2 =>
    obtain rfl := Option.some.inj h
    simp
  | case3 c rest hspan hspace ih => exact ih h
  | case4 => cases h

/-! ### Trees -/

mutual

/-- Each whole number of the tree fits 64 bits. -/
def FitsWords : Json → Prop
  | .number n => n.FitsWord
  | .array elements => ElementsFit elements
  | .object members => MembersFit members
  | _ => True

def ElementsFit : List Json → Prop
  | [] => True
  | j :: rest => j.FitsWords ∧ ElementsFit rest

def MembersFit : List (String × Json) → Prop
  | [] => True
  | (_, j) :: rest => j.FitsWords ∧ MembersFit rest

end

theorem elementsFit_iff {js : List Json} : ElementsFit js ↔ ∀ j ∈ js, j.FitsWords := by
  induction js with
  | nil => simp [ElementsFit]
  | cons j js ih => rw [ElementsFit, ih, List.forall_mem_cons]

theorem membersFit_iff {es : List (String × Json)} : MembersFit es ↔ ∀ e ∈ es, e.2.FitsWords := by
  induction es with
  | nil => simp [MembersFit]
  | cons e es ih => rw [MembersFit, ih, List.forall_mem_cons]

theorem exists_of_mem_mapM {α β : Type} {f : α → Option β} {xs : List α} {ys : List β}
    (h : xs.mapM f = some ys) {y : β} (hy : y ∈ ys) : ∃ x ∈ xs, f x = some y := by
  induction xs generalizing ys with
  | nil =>
    obtain rfl := Option.some.inj h
    contradiction
  | cons x xs ih =>
    rw [List.mapM_cons] at h
    obtain ⟨z, hz, h⟩ := Option.bind_eq_some_iff.mp h
    obtain ⟨zs, hzs, h⟩ := Option.bind_eq_some_iff.mp h
    obtain rfl := Option.some.inj h
    rcases List.mem_cons.mp hy with rfl | hy
    · exact ⟨x, List.mem_cons_self, hz⟩
    · obtain ⟨x', hx', hfx'⟩ := ih hzs hy
      exact ⟨x', List.mem_cons_of_mem x hx', hfx'⟩

theorem fitsWords_ofMembers {done : List (Option String × Json)} (h : ∀ e ∈ done, e.2.FitsWords) :
    (ofMembers done).FitsWords := by
  unfold ofMembers
  split
  · rename_i members hmembers
    refine membersFit_iff.mpr fun e he => ?_
    obtain ⟨e', he', hsome⟩ := exists_of_mem_mapM hmembers he
    obtain ⟨k, -, rfl⟩ := Option.map_eq_some_iff.mp hsome
    exact h e' (List.mem_reverse.mp he')
  · trivial

theorem fitsWords_nested {stack : List Open} {container : Json} (h : container.FitsWords) :
    (nested stack container).FitsWords := by
  unfold nested
  split
  · exact h
  · trivial

/-! ### The reader -/

/-- The values that an open container holds so far. -/
def Open.values : Open → List Json
  | .array done => done
  | .object done _ => done.map (·.2)

/-- The values that a reader holds. -/
def Reader.values : Reader → List Json
  | .value stack | .element stack | .firstKey stack => stack.flatMap Open.values
  | .key done stack | .colon done _ stack => done.map (·.2) ++ stack.flatMap Open.values
  | .complete v stack => v :: stack.flatMap Open.values

def Reader.FitsWords (r : Reader) : Prop := ∀ j ∈ r.values, j.FitsWords

namespace Reader

theorem FitsWords.beginValue {stack : List Open} {t : Token} {r : Reader}
    (h : (Reader.value stack).FitsWords) (ht : t.FitsWord)
    (hbegin : Reader.beginValue stack t = some r) : r.FitsWords := by
  have hcomplete : ∀ {v : Json}, v.FitsWords → (Reader.complete v stack).FitsWords :=
    fun hv => List.forall_mem_cons.mpr ⟨hv, h⟩
  cases t with
  | null | bool _ =>
    obtain rfl := Option.some.inj hbegin
    exact hcomplete trivial
  | number n =>
    obtain rfl := Option.some.inj hbegin
    cases n with
    | none => exact hcomplete trivial
    | some n => exact hcomplete ht
  | text s =>
    obtain rfl := Option.some.inj hbegin
    cases s <;> exact hcomplete trivial
  | openArray | openObject =>
    obtain rfl := Option.some.inj hbegin
    exact h
  | _ => cases hbegin

theorem FitsWords.feed {r r' : Reader} {t : Token} (h : r.FitsWords) (ht : t.FitsWord)
    (hfeed : r.feed t = some r') :
    r'.FitsWords := by
  unfold Reader.feed at hfeed
  split at hfeed
  case h_1 stack t => exact FitsWords.beginValue h ht hfeed
  case h_2 stack =>
    obtain rfl := Option.some.inj hfeed
    exact List.forall_mem_cons.mpr ⟨fitsWords_nested trivial, h⟩
  case h_3 t stack _ =>
    have harray : (Reader.value (.array [] :: stack)).FitsWords := h
    exact harray.beginValue ht hfeed
  case h_4 | h_5 =>
    obtain rfl := Option.some.inj hfeed
    exact h
  case h_6 stack =>
    obtain rfl := Option.some.inj hfeed
    exact List.forall_mem_cons.mpr ⟨fitsWords_nested trivial, h⟩
  case h_7 =>
    obtain rfl := Option.some.inj hfeed
    exact h
  case h_8 | h_10 =>
    obtain rfl := Option.some.inj hfeed
    exact h
  case h_9 v done stack =>
    obtain rfl := Option.some.inj hfeed
    obtain ⟨hv, hparts⟩ := List.forall_mem_cons.mp h
    obtain ⟨hdone, hstack⟩ := List.forall_mem_append.mp hparts
    have harray : (Json.array (v :: done).reverse).FitsWords :=
      elementsFit_iff.mpr fun j hj =>
        List.forall_mem_cons.mpr ⟨hv, hdone⟩ j (List.mem_reverse.mp hj)
    exact List.forall_mem_cons.mpr ⟨fitsWords_nested harray, hstack⟩
  case h_11 v done name stack =>
    obtain rfl := Option.some.inj hfeed
    obtain ⟨hv, hparts⟩ := List.forall_mem_cons.mp h
    obtain ⟨hdone, hstack⟩ := List.forall_mem_append.mp hparts
    refine List.forall_mem_cons.mpr ⟨fitsWords_nested (fitsWords_ofMembers ?_), hstack⟩
    exact List.forall_mem_cons.mpr ⟨hv, List.forall_mem_map.mp hdone⟩
  case h_12 => cases hfeed

/-- What a reader holds fits after any tokens that fit. -/
theorem FitsWords.foldlM {r r' : Reader} {ts : List Token} (h : r.FitsWords)
    (hts : ∀ t ∈ ts, t.FitsWord) (hfeed : ts.foldlM Reader.feed r = some r') : r'.FitsWords := by
  induction ts generalizing r with
  | nil =>
    obtain rfl := Option.some.inj hfeed
    exact h
  | cons t ts ih =>
    obtain ⟨ht, hts⟩ := List.forall_mem_cons.mp hts
    rw [List.foldlM_cons] at hfeed
    obtain ⟨middle, hmiddle, hrest⟩ := Option.bind_eq_some_iff.mp hfeed
    exact ih (h.feed ht hmiddle) hts hrest

end Reader

/-- The tree of a text holds no whole number that is too long. -/
theorem fitsWords_of_read? {source : String} {j : Json} (h : read? source = some j) :
    j.FitsWords := by
  obtain ⟨ts, hlex, htokens⟩ := Option.bind_eq_some_iff.mp h
  obtain ⟨r, hread, hresult⟩ := Option.bind_eq_some_iff.mp htokens
  have hempty : (Reader.value []).FitsWords := by simp [Reader.FitsWords, Reader.values]
  have hr := hempty.foldlM (fitsWord_lex hlex) hread
  unfold Reader.result? at hresult
  split at hresult
  · obtain rfl := Option.some.inj hresult
    exact hr _ List.mem_cons_self
  · cases hresult

theorem mem_entries_ofList {α : Type} {es : List (String × α)} {e : String × α}
    (h : e ∈ (Table.ofList es).entries) :
    e ∈ es := by
  have hfold : ∀ (es : List (String × α)) (t : Table α),
      e ∈ (es.foldl (fun t e => t.insert e.1 e.2) t).entries → e ∈ t.entries ∨ e ∈ es := by
    intro es
    induction es with
    | nil => exact fun _ h => .inl h
    | cons d ds ih =>
      intro t h
      rcases ih _ h with h | h
      · rcases Table.mem_place h with rfl | h
        · exact .inr List.mem_cons_self
        · exact .inl h
      · exact .inr (List.mem_cons_of_mem _ h)
  exact (hfold es .empty h).resolve_left (List.not_mem_nil)

mutual

theorem FitsWords.settle : ∀ {j : Json}, j.FitsWords → j.settle.FitsWords
  | .null, _ | .bool _, _ | .text _, _ | .unreadable, _ => trivial
  | .number _, h => h
  | .array _, h => ElementsFit.settle h
  | .object members, h => membersFit_iff.mpr fun e he =>
    membersFit_iff.mp (@MembersFit.settle members h) e (mem_entries_ofList he)

theorem ElementsFit.settle : ∀ {js : List Json}, ElementsFit js → ElementsFit (settleElements js)
  | [], _ => trivial
  | _ :: _, ⟨hj, hjs⟩ => ⟨hj.settle, hjs.settle⟩

theorem MembersFit.settle :
    ∀ {es : List (String × Json)}, MembersFit es → MembersFit (settleMembers es)
  | [], _ => trivial
  | (_, _) :: _, ⟨hj, hes⟩ => ⟨FitsWords.settle hj, hes.settle⟩

end

theorem fitsWords_of_readValue? {source : String} {j : Json} (h : readValue? source = some j) :
    j.FitsWords := by
  obtain ⟨tree, hread, hvalue⟩ := Option.bind_eq_some_iff.mp h
  obtain rfl := Option.some.inj (Option.ite_none_right_eq_some.mp hvalue).2
  exact (fitsWords_of_read? hread).settle

/-! ### Records -/

theorem mem_of_member? {name : String} {members : List (String × Json)} {j : Json}
    (h : member? name members = some j) :
    (name, j) ∈ members := by
  induction members with
  | nil => cases h
  | cons e members ih =>
    rw [member?, Table.search] at h
    split at h
    · rename_i hname
      obtain rfl := Option.some.inj h
      rw [hname]
      exact List.mem_cons_self
    · exact List.mem_cons_of_mem _ (ih h)

theorem Fields.mem_parts_of_at {f : Fields} {i : Nat} {j : Json} (h : f.at i = some j) :
    some j ∈ f.parts :=
  List.mem_of_getElem? (Option.join_eq_some_iff.mp h)

/-- The fields of a record are parts of its tree. -/
theorem FitsWords.field {names : List String} {j k : Json} {f : Fields} {i : Nat} (h : j.FitsWords)
    (hfields : j.fields? names = some f) (hat : f.at i = some k) : k.FitsWords := by
  have hmem := Fields.mem_parts_of_at hat
  unfold fields? at hfields
  split at hfields
  · rename_i members
    obtain rfl := Option.some.inj (Option.ite_none_right_eq_some.mp hfields).2
    obtain ⟨name, -, hmember⟩ := List.mem_map.mp hmem
    exact membersFit_iff.mp h _ (mem_of_member? hmember)
  · rename_i elements
    obtain rfl := Option.some.inj (Option.ite_none_right_eq_some.mp hfields).2
    refine elementsFit_iff.mp h k ?_
    simpa using hmem
  · cases hfields

/-- A field that has a default is the default, or decoded from a part of the tree. -/
theorem FitsWords.defaulted {α : Type} {names : List String} {j : Json} {f : Fields}
    {i : Nat} {default a : α} {decode : Json → Option α} (h : j.FitsWords)
    (hfields : j.fields? names = some f) (hdefaulted : f.defaulted i default decode = some a) :
    a = default ∨ ∃ k, k.FitsWords ∧ decode k = some a := by
  unfold Fields.defaulted at hdefaulted
  split at hdefaulted
  · exact .inl (Option.some.inj hdefaulted).symm
  · rename_i k hat
    exact .inr ⟨k, h.field hfields hat, hdefaulted⟩

theorem FitsWords.list? {α : Type} {j : Json} {decode : Json → Option α}
    {as : List α} (h : j.FitsWords) (hlist : list? decode j = some as) {a : α} (ha : a ∈ as) :
    ∃ k, k.FitsWords ∧ decode k = some a := by
  unfold Json.list? at hlist
  split at hlist
  · obtain ⟨k, hk, hdecode⟩ := exists_of_mem_mapM hlist ha
    exact ⟨k, elementsFit_iff.mp h k hk, hdecode⟩
  · cases hlist

theorem FitsWords.nat? {j : Json} {n : Nat} (h : j.FitsWords) (hn : j.nat? = some n) :
    n ≤ counterMax := by
  unfold Json.nat? at hn
  split at hn
  · obtain rfl := Option.some.inj hn
    exact h
  · cases hn

end BlockStudio.Json

namespace BlockStudio.Document
open Json BlockStudio.Number

theorem id_le_of_chain? {j : Json} {c : DocumentChain} (h : j.FitsWords) (hc : chain? j = some c) :
    c.id ≤ counterMax := by
  obtain ⟨f, hfields, hc⟩ := Option.bind_eq_some_iff.mp hc
  obtain ⟨id, hid, hc⟩ := Option.bind_eq_some_iff.mp hc
  obtain ⟨x, -, hc⟩ := Option.bind_eq_some_iff.mp hc
  obtain ⟨y, -, hc⟩ := Option.bind_eq_some_iff.mp hc
  obtain ⟨blocks, -, hc⟩ := Option.bind_eq_some_iff.mp hc
  obtain rfl := Option.some.inj hc
  obtain rfl | ⟨k, hk, hdecode⟩ := h.defaulted hfields hid
  · exact Nat.zero_le _
  · exact hk.nat? hdecode

theorem id_le_of_ofJson? {j : Json} {d : Document} (h : j.FitsWords) (hd : ofJson? j = some d) :
    ∀ c ∈ d.chains, c.id ≤ counterMax := by
  obtain ⟨f, hfields, hd⟩ := Option.bind_eq_some_iff.mp hd
  obtain ⟨chains, hchains, hd⟩ := Option.bind_eq_some_iff.mp hd
  obtain ⟨names, -, hd⟩ := Option.bind_eq_some_iff.mp hd
  obtain rfl := Option.some.inj hd
  obtain rfl | ⟨k, hk, hdecode⟩ := h.defaulted hfields hchains
  · simp
  · intro c hc
    obtain ⟨element, helement, hchain⟩ := hk.list? hdecode hc
    exact id_le_of_chain? helement hchain

/-- The ids of a document that was read fit 64 bits. -/
theorem id_le_of_ofSource {source : String} {d : Document} (h : ofSource source = .ok d) :
    ∀ c ∈ d.chains, c.id ≤ counterMax := by
  unfold ofSource at h
  split at h
  · cases h
  · rename_i members hread
    have hfits := fitsWords_of_readValue? hread
    split at h
    · split at h
      · cases h
      · rename_i version document hproject
        split at h
        · cases h
        · obtain rfl := Except.ok.inj h
          obtain ⟨f, hfields, hproject⟩ := Option.bind_eq_some_iff.mp hproject
          obtain ⟨n, -, hproject⟩ := Option.bind_eq_some_iff.mp hproject
          obtain ⟨d, hdocument, hproject⟩ := Option.bind_eq_some_iff.mp hproject
          obtain ⟨k, hat, hdecode⟩ := Option.bind_eq_some_iff.mp hdocument
          obtain ⟨-, rfl⟩ := Prod.mk.inj (Option.some.inj hproject)
          exact id_le_of_ofJson? (hfits.field hfields hat) hdecode
    · split at h
      · cases h
      · rename_i document hdecode
        obtain rfl := Except.ok.inj h
        exact id_le_of_ofJson? hfits hdecode
  · cases h

end BlockStudio.Document
