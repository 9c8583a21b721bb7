import BlockStudio.Label
import Mathlib.Data.List.Basic

/-!
Labels as lists of pieces. A label is read once from left to right, and its pieces are characters
that are copied and places of names. Main statement: a label can be read in one way only, its pieces
spell it, and it is filled piece by piece, so what is filled in is never read and nothing but the
values of its own names matters.
-/
namespace BlockStudio

namespace Label

inductive Piece where
  | copied (c : Char)
  | named (name : List Char)

namespace Piece

/-- The piece as it stands in the label. -/
def spelled : Piece → List Char
  | .copied c => [c]
  | .named name => '\x7b' :: (name ++ ['\x7d'])

def name? : Piece → Option String
  | .copied _ => none
  | .named name => some (String.ofList name)

/-- The value of the name of the piece. A piece without one stays as it stands. -/
def filled (values : Table String) (p : Piece) : List Char :=
  ((p.name?.bind values.get?).map String.toList).getD p.spelled

theorem filled_named (values : Table String) (name : List Char) :
    (named name).filled values = place values name := by
  simp only [filled, name?, place, Option.bind_some]
  cases values.get? (String.ofList name) <;> rfl

/-- A piece is filled alike from tables that agree on its name. -/
theorem filled_congr {values values' : Table String} {p : Piece}
    (h : ∀ name, p.name? = some name → values.get? name = values'.get? name) :
    p.filled values = p.filled values' := by
  have hvalue : p.name?.bind values.get? = p.name?.bind values'.get? := Option.bind_congr h
  rw [filled, filled, hvalue]

end Piece

def names (ps : List Piece) : List String := ps.filterMap Piece.name?

/-- How a label is read. An opening brace and the next closing brace after it are around a name, and
an opening brace that nothing closes is copied with all that follows. -/
inductive Reads : List Char → List Piece → Prop
  | done : Reads [] []
  | copy {c : Char} {rest : List Char} {ps : List Piece} (hc : c ≠ '\x7b') (h : Reads rest ps) :
    Reads (c :: rest) (.copied c :: ps)
  | close {name tail : List Char} {ps : List Piece} (hname : '\x7d' ∉ name) (h : Reads tail ps) :
    Reads ('\x7b' :: (name ++ '\x7d' :: tail)) (.named name :: ps)
  | unclosed {rest : List Char} (hrest : '\x7d' ∉ rest) :
    Reads ('\x7b' :: rest) (('\x7b' :: rest).map .copied)

section
variable {cs name tail : List Char} {ps ps' : List Piece}

theorem splitAtClose?_append (hname : '\x7d' ∉ name) (tail : List Char) :
    splitAtClose? (name ++ '\x7d' :: tail) = some (name, tail) := by
  induction name with
  | nil => rfl
  | cons c name ih =>
    rw [List.mem_cons, not_or] at hname
    rw [List.cons_append, splitAtClose?, if_neg (Ne.symm hname.1), ih hname.2]
    rfl

theorem splitAtClose?_eq_none (hcs : '\x7d' ∉ cs) : splitAtClose? cs = none := by
  induction cs with
  | nil => rfl
  | cons c cs ih =>
    rw [List.mem_cons, not_or] at hcs
    rw [splitAtClose?, if_neg (Ne.symm hcs.1), ih hcs.2]
    rfl

/-- Every label can be read. The induction is on the length, since what follows a closing brace is
read anew. -/
theorem exists_reads (cs : List Char) : ∃ ps, Reads cs ps := by
  induction hlength : cs.length using Nat.strongRecOn generalizing cs with
  | ind n ih =>
    subst hlength
    cases cs with
    | nil => exact ⟨[], .done⟩
    | cons c rest =>
      by_cases hc : c = '\x7b'
      · subst hc
        by_cases hclose : '\x7d' ∈ rest
        · obtain ⟨name, tail, rfl, hname⟩ := List.eq_append_cons_of_mem hclose
          obtain ⟨ps, hps⟩ := ih tail.length (by simp; omega) tail rfl
          exact ⟨_, .close hname hps⟩
        · exact ⟨_, .unclosed hclose⟩
      · obtain ⟨ps, hps⟩ := ih rest.length (by simp) rest rfl
        exact ⟨_, .copy hc hps⟩

namespace Reads

/-- A label can be read in one way only. -/
theorem unique (h : Reads cs ps) (h' : Reads cs ps') : ps' = ps := by
  induction h generalizing ps' with
  | done =>
    cases h'
    rfl
  | copy hc _ ih =>
    cases h' with
    | copy _ h' => rw [ih h']
    | close => exact absurd rfl hc
    | unclosed => exact absurd rfl hc
  | @close name tail ps hname _ ih =>
    generalize hrest : name ++ '\x7d' :: tail = rest at h'
    cases h' with
    | copy hc _ => exact absurd rfl hc
    | @close name' tail' _ hname' h' =>
      have hsplit := splitAtClose?_append hname tail
      rw [hrest, splitAtClose?_append hname' tail'] at hsplit
      obtain ⟨rfl, rfl⟩ := Prod.mk.inj (Option.some.inj hsplit)
      rw [ih h']
    | unclosed hclose => exact absurd (hrest ▸ by simp) hclose
  | @unclosed rest hclose =>
    cases h' with
    | copy hc _ => exact absurd rfl hc
    | close => exact absurd (by simp) hclose
    | unclosed => rfl

/-- The pieces of a label spell it. -/
theorem spelled_eq (h : Reads cs ps) : ps.flatMap Piece.spelled = cs := by
  induction h with
  | done => rfl
  | copy _ _ ih => rw [List.flatMap_cons, ih, Piece.spelled, List.singleton_append]
  | close _ _ ih => simp [ih, Piece.spelled]
  | unclosed => simp [List.flatMap_map, Piece.spelled]

/-- A label is filled piece by piece. -/
theorem fill_eq (h : Reads cs ps) (values : Table String) :
    fill values cs = ps.flatMap (Piece.filled values) := by
  induction h with
  | done => simp [fill]
  | copy hc _ ih => simp [fill, hc, ih, Piece.filled, Piece.name?, Piece.spelled]
  | @close name tail ps hname _ ih =>
    rw [fill, if_pos rfl]
    split
    · rename_i name' tail' hsplit
      rw [splitAtClose?_append hname] at hsplit
      obtain ⟨rfl, rfl⟩ := Prod.mk.inj (Option.some.inj hsplit)
      rw [ih, List.flatMap_cons, Piece.filled_named]
    · rename_i hsplit
      rw [splitAtClose?_append hname] at hsplit
      cases hsplit
  | unclosed hrest =>
    rw [fill, if_pos rfl]
    split
    · rename_i hsplit
      rw [splitAtClose?_eq_none hrest] at hsplit
      cases hsplit
    · simp [List.flatMap_map, Piece.filled, Piece.name?, Piece.spelled]

end Reads

theorem flatMap_filled_congr {values values' : Table String}
    (h : ∀ name ∈ names ps, values.get? name = values'.get? name) :
    ps.flatMap (Piece.filled values) = ps.flatMap (Piece.filled values') := by
  refine List.flatMap_congr fun p hp => Piece.filled_congr fun name hname => h name ?_
  exact List.mem_filterMap.2 ⟨p, hp, hname⟩

/-- Without values the pieces stay as they stand. -/
theorem flatMap_filled_of_none {values : Table String}
    (h : ∀ name ∈ names ps, values.get? name = none) :
    ps.flatMap (Piece.filled values) = ps.flatMap Piece.spelled := by
  have hempty : ∀ name ∈ names ps, values.get? name = Table.empty.get? name := h
  rw [flatMap_filled_congr hempty]
  refine List.flatMap_congr fun p _ => ?_
  cases p <;> rfl

end

end Label

open Label

/-- A label is filled in one pass. It can be read in one way only, and its pieces spell it. Whatever
the values are, each place gets the value of its name, or stays as it stands when there is none, and
all else is copied. So a table with none of the names of the label leaves it as it is, and only the
values of these names matter. -/
theorem Definition.renderLabel_fills_pieces (d : Definition) : ∃ ps,
    Reads d.label.toList ps ∧ (∀ ps', Reads d.label.toList ps' → ps' = ps) ∧
    ps.flatMap Piece.spelled = d.label.toList ∧
    (∀ values, d.renderLabel values = String.ofList (ps.flatMap (Piece.filled values))) ∧
    (∀ values, (∀ name ∈ names ps, values.get? name = none) → d.renderLabel values = d.label) ∧
    ∀ values values', (∀ name ∈ names ps, values.get? name = values'.get? name) →
      d.renderLabel values = d.renderLabel values' := by
  obtain ⟨ps, hreads⟩ := exists_reads d.label.toList
  have hfill : ∀ values, d.renderLabel values = String.ofList (ps.flatMap (Piece.filled values)) :=
    fun values => congrArg String.ofList (hreads.fill_eq values)
  refine ⟨ps, hreads, fun ps' h => hreads.unique h, hreads.spelled_eq, hfill, ?_, ?_⟩
  · intro values hnone
    rw [hfill, flatMap_filled_of_none hnone, hreads.spelled_eq, String.ofList_toList]
  · intro values values' hsame
    rw [hfill, hfill, flatMap_filled_congr hsame]

/-- What is filled in is not read, and a name may have an opening brace in it. -/
example : (⟨.events, "say \x7ba\x7bb\x7d or \x7d then \x7bc", [], .hat⟩ : Definition).renderLabel
    (.ofList [("a\x7bb", "\x7bc\x7d"), ("c", "d")]) = "say \x7bc\x7d or \x7d then \x7bc" := by
  decide +kernel

end BlockStudio
