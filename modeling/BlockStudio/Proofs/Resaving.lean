import BlockStudio.Proofs.ReadWords
import BlockStudio.Proofs.SavedDocuments
import Mathlib.Data.List.Forall2

/-!
Saving what was read. A coordinate that is too great for a single is read as infinite, and what is
not finite is printed as `null`, which is no coordinate. The project around a document nests its
blocks one level deeper. Main statement: what is saved for a document that was read is read as the
same document or not at all, and not at all just for these reasons.
-/
namespace BlockStudio.Json

/-- Two trees have the same text and nest as deep. -/
structure PrintsAs (j j' : Json) : Prop where
  text : ∀ level, j.prettyChars level = j'.prettyChars level
  depth : j.depth = j'.depth

theorem PrintsAs.refl (j : Json) : j.PrintsAs j := ⟨fun _ => rfl, rfl⟩

theorem PrintsAs.object {es es' : List (String × Json)}
    (h : List.Forall₂ (fun e e' => e.1 = e'.1 ∧ e.2.PrintsAs e'.2) es es') :
    (Json.object es).PrintsAs (.object es') := by
  obtain ⟨htext, hdepth⟩ : (∀ level, prettyMembers level es = prettyMembers level es') ∧
      membersDepth es = membersDepth es' := by
    induction h with
    | nil => exact ⟨fun _ => rfl, rfl⟩
    | @cons e e' es es' he hes ih =>
      obtain ⟨hname, hvalue⟩ := he
      obtain ⟨htext, hdepth⟩ := ih
      refine ⟨fun level => ?_, by simp only [membersDepth, hvalue.depth, hdepth]⟩
      cases hes with
      | nil => simp only [prettyMembers, hname, hvalue.text]
      | cons _ _ => simp only [prettyMembers, hname, hvalue.text, htext]
  refine ⟨fun level => ?_, by rw [Json.depth, Json.depth, hdepth]⟩
  cases h with
  | nil => rfl
  | cons _ _ => simp only [prettyChars, htext (level + 1)]

section
variable {α : Type} {f g : α → Json}

theorem PrintsAs.array (h : ∀ x, (f x).PrintsAs (g x)) (xs : List α) :
    (Json.array (xs.map f)).PrintsAs (.array (xs.map g)) := by
  have htext : ∀ (xs : List α) (level : Nat), prettyElements level (xs.map f) =
      prettyElements level (xs.map g) := by
    intro xs level
    induction xs with
    | nil => rfl
    | cons x xs ih =>
      cases xs with
      | nil => simp only [List.map_cons, List.map_nil, prettyElements, (h x).text]
      | cons y xs =>
        simp only [List.map_cons] at ih
        simp only [List.map_cons, prettyElements, (h x).text, ih]
  have hdepth : elementsDepth (xs.map f) = elementsDepth (xs.map g) := by
    induction xs with
    | nil => rfl
    | cons x xs ih => simp only [List.map_cons, elementsDepth, (h x).depth, ih]
  refine ⟨fun level => ?_, by rw [Json.depth, Json.depth, hdepth]⟩
  cases xs with
  | nil => rfl
  | cons x xs =>
    have hxs := htext (x :: xs) (level + 1)
    simp only [List.map_cons] at hxs
    simp only [List.map_cons, prettyChars, hxs]

theorem legible_map {xs : List α} (h : ∀ x ∈ xs, (f x).Legible) :
    (Json.array (xs.map f)).Legible := by
  induction xs with
  | nil => trivial
  | cons x xs ih =>
    obtain ⟨hx, hxs⟩ := List.forall_mem_cons.mp h
    exact ⟨hx, ih hxs⟩

theorem settle_reread_map (xs : List α) :
    (Json.array (xs.map f)).reread.settle = .array (xs.map fun x => (f x).reread.settle) := by
  rw [reread, settle]
  congr 1
  induction xs with
  | nil => rfl
  | cons x xs ih => simp only [List.map_cons, rereadElements, settleElements, ih]

/-- A list is decoded when each of its elements is. -/
theorem list?_map_eq_ite {decode : Json → Option α} {P : α → Prop} [DecidablePred P] {xs : List α}
    (h : ∀ x ∈ xs, decode (f x) = if P x then some x else none) :
    list? decode (.array (xs.map f)) = if ∀ x ∈ xs, P x then some xs else none := by
  rw [list?]
  induction xs with
  | nil => simp
  | cons x xs ih =>
    obtain ⟨hx, hxs⟩ := List.forall_mem_cons.mp h
    rw [List.map_cons, List.mapM_cons, hx, ih hxs]
    simp only [List.forall_mem_cons]
    by_cases hall : P x ∧ ∀ y ∈ xs, P y
    · rw [if_pos hall, if_pos hall.1, if_pos hall.2]
      rfl
    · rw [if_neg hall]
      by_cases hP : P x
      · have hrest : ¬∀ y ∈ xs, P y := fun h => hall ⟨hP, h⟩
        rw [if_pos hP, if_neg hrest]
        rfl
      · rw [if_neg hP]
        rfl

end

end BlockStudio.Json

namespace BlockStudio.Document
open Json BlockStudio.Number

/-! ### What is printed -/

/-- The tree that is printed for a single. -/
def printedSingle (x : Float32) : Json := if x.isFinite then .number (.single x) else .null

def printedChain (c : DocumentChain) : Json :=
  .object [("id", .number (.nat c.id)), ("x", printedSingle c.x), ("y", printedSingle c.y),
    ("blocks", .array (blocksToJson c.blocks))]

def printed (d : Document) : Json :=
  .object [("chains", .array (d.chains.map printedChain)),
    ("variables", .array (d.variableNames.map .text))]

def printedProject (d : Document) : Json :=
  .object [("version", .number (.nat projectVersion)), ("document", d.printed)]

theorem printsAs_printedSingle (x : Float32) :
    (printedSingle x).PrintsAs (.number (.single x)) := by
  unfold printedSingle
  split
  · exact .refl _
  · rename_i hx
    exact ⟨fun _ => by simp only [prettyChars, Json.Number.text, if_neg hx], rfl⟩

theorem printsAs_printedChain (c : DocumentChain) : (printedChain c).PrintsAs (chainToJson c) :=
  .object (.cons ⟨rfl, .refl _⟩
    (.cons ⟨rfl, printsAs_printedSingle c.x⟩
    (.cons ⟨rfl, printsAs_printedSingle c.y⟩ (.cons ⟨rfl, .refl _⟩ .nil))))

theorem printsAs_printed (d : Document) : d.printed.PrintsAs d.toJson :=
  .object (.cons ⟨rfl, .array printsAs_printedChain d.chains⟩ (.cons ⟨rfl, .refl _⟩ .nil))

/-- The project of what is printed has the text that is saved. -/
theorem printsAs_printedProject (d : Document) : d.printedProject.PrintsAs d.toProject :=
  .object (.cons ⟨rfl, .refl _⟩ (.cons ⟨rfl, printsAs_printed d⟩ .nil))

/-! ### What is read -/

/-- The position of the chain is finite. -/
def IsPlaced (c : DocumentChain) : Prop := c.x.isFinite = true ∧ c.y.isFinite = true

instance : DecidablePred IsPlaced := fun _ => inferInstanceAs (Decidable (_ ∧ _))

theorem legible_printedSingle {x : Float32} (h : x.isFinite = true → PrintsExactly x) :
    (printedSingle x).Legible := by
  unfold printedSingle
  split
  · rename_i hx
    exact ((printsExactly_iff x).mp (h hx)).1
  · trivial

theorem single?_printedSingle {x : Float32} (h : x.isFinite = true → PrintsExactly x) :
    single? (printedSingle x).reread.settle = if x.isFinite then some x else none := by
  unfold printedSingle
  split
  · rename_i hx
    exact ((printsExactly_iff x).mp (h hx)).2
  · rfl

section
variable {c : DocumentChain} (hid : c.id ≤ counterMax)
    (hx : c.x.isFinite = true → PrintsExactly c.x)
  (hy : c.y.isFinite = true → PrintsExactly c.y)
include hid hx hy

theorem legible_printedChain : (printedChain c).Legible :=
  ⟨(ComesBack.nat hid).legible, legible_printedSingle hx, legible_printedSingle hy,
    (comesBack_blocks c.blocks).legible, trivial⟩

/-- A chain is read back just if it is placed. -/
theorem chain?_printedChain :
    chain? (printedChain c).reread.settle = if IsPlaced c then some c else none := by
  rw [printedChain, settle_chainMembers]
  refine (chain?_of_fields rfl).trans ?_
  rw [(ComesBack.nat hid).settled, single?_printedSingle hx, single?_printedSingle hy, ← slotTree,
    (comesBack_blocks c.blocks).settled]
  by_cases hfiniteX : c.x.isFinite = true
  · by_cases hfiniteY : c.y.isFinite = true
    · rw [if_pos hfiniteX, if_pos hfiniteY, if_pos ⟨hfiniteX, hfiniteY⟩]
      rfl
    · have hplaced : ¬IsPlaced c := fun h => hfiniteY h.2
      rw [if_pos hfiniteX, if_neg hfiniteY, if_neg hplaced]
      rfl
  · have hplaced : ¬IsPlaced c := fun h => hfiniteX h.1
    rw [if_neg hfiniteX, if_neg hplaced]
    rfl

end

theorem forall_coordinates {d : Document} {P : Float32 → Prop} :
    (∀ x ∈ d.coordinates, P x) ↔ ∀ c ∈ d.chains, P c.x ∧ P c.y := by
  simp only [coordinates, List.mem_flatMap, List.mem_cons, List.not_mem_nil, or_false]
  constructor
  · exact fun h c hc => ⟨h c.x ⟨c, hc, .inl rfl⟩, h c.y ⟨c, hc, .inr rfl⟩⟩
  · rintro h x ⟨c, hc, rfl | rfl⟩
    · exact (h c hc).1
    · exact (h c hc).2

section
variable {d : Document} (hids : ∀ c ∈ d.chains, c.id ≤ counterMax)
  (reads : ∀ x ∈ d.coordinates, x.isFinite = true → PrintsExactly x)
include hids reads

theorem legible_printedProject : d.printedProject.Legible := by
  have hexact := forall_coordinates.mp reads
  have hchains : (Json.array (d.chains.map printedChain)).Legible :=
    legible_map fun c hc => legible_printedChain (hids c hc) (hexact c hc).1 (hexact c hc).2
  have hnames : (Json.array (d.variableNames.map Json.text)).Legible :=
    legible_map fun _ _ => trivial
  exact ⟨(ComesBack.nat (by decide)).legible, ⟨hchains, hnames, trivial⟩, trivial⟩

theorem project?_printedProject : project? d.printedProject.reread.settle =
    if ∀ x ∈ d.coordinates, x.isFinite = true then some (projectVersion, d) else none := by
  have hexact := forall_coordinates.mp reads
  have hchains : list? chain? (Json.array (d.chains.map printedChain)).reread.settle =
      if ∀ c ∈ d.chains, IsPlaced c then some d.chains else none := by
    rw [settle_reread_map]
    exact list?_map_eq_ite fun c hc =>
      chain?_printedChain (hids c hc) (hexact c hc).1 (hexact c hc).2
  have hnames : ComesBack (list? text?) (.array (d.variableNames.map Json.text)) d.variableNames :=
    ComesBack.list fun s _ => ComesBack.text s
  have hdocument : ofJson? d.printed.reread.settle = if ∀ c ∈ d.chains, IsPlaced c then
      some d else none := by
    rw [printed, settle_documentMembers]
    refine (ofJson?_of_fields rfl).trans ?_
    rw [hchains, hnames.settled]
    split <;> rfl
  have hplaced : (∀ c ∈ d.chains, IsPlaced c) ↔ ∀ x ∈ d.coordinates, x.isFinite = true :=
    (forall_coordinates (P := fun x => x.isFinite = true)).symm
  have hversion : ComesBack version? (.number (.nat projectVersion)) projectVersion :=
    ComesBack.number (Number.nat_readsAs (by decide)) rfl
  rw [printedProject, settle_projectMembers]
  refine (project?_of_fields rfl).trans ?_
  rw [hversion.settled, hdocument, if_congr hplaced rfl rfl]
  split <;> rfl

/-- What is saved for a document is read as the document, if it does not nest too deep and its
positions are finite. -/
theorem ofSource_toSource : ofSource d.toSource =
    if d.toProject.depth ≤ depthLimit then
      if ∀ x ∈ d.coordinates, x.isFinite = true then .ok d else .error .badProject
    else .error .malformed := by
  have hprints := printsAs_printedProject d
  have hsource : d.toSource = d.printedProject.pretty :=
    congrArg String.ofList (hprints.text 0).symm
  have hread := readValue?_pretty_eq (legible_printedProject hids reads)
  have hproject := project?_printedProject hids reads
  rw [← hsource, hprints.depth] at hread
  rw [printedProject, settle_projectMembers] at hread hproject
  rw [ofSource, hread]
  by_cases hdepth : d.toProject.depth ≤ depthLimit
  · rw [if_pos hdepth, if_pos hdepth]
    have hmember : (member? "document" [("document", d.printed.reread.settle),
      ("version", (Json.number (.nat projectVersion)).reread.settle)]).isSome = true := rfl
    simp only [hmember, if_true, hproject]
    by_cases hfinite : ∀ x ∈ d.coordinates, x.isFinite = true
    · rw [if_pos hfinite, if_pos hfinite]
      rfl
    · rw [if_neg hfinite, if_neg hfinite]
  · rw [if_neg hdepth, if_neg hdepth]

end

/-- What is saved for a document that was read is read as the document or not at all: it is well
formed just if the project does not nest too deep, and then has a document just if all positions are
finite. -/
theorem resaved_source {source : String} {d : Document} (h : ofSource source = .ok d)
    (reads : ∀ x ∈ d.coordinates, x.isFinite = true → PrintsExactly x) :
    ofSource d.toSource =
      if d.toProject.depth ≤ depthLimit then
        if ∀ x ∈ d.coordinates, x.isFinite = true then .ok d else .error .badProject
      else .error .malformed :=
  ofSource_toSource (id_le_of_ofSource h) reads

theorem exists_of_toOption_map {α : Type} {source : String} {f : Document → α} {a : α}
    (h : (ofSource source).toOption.map f = some a) : ∃ d, ofSource source = .ok d ∧ f d = a := by
  obtain ⟨d, hd, hfd⟩ := Option.map_eq_some_iff.mp h
  refine ⟨d, ?_, hfd⟩
  cases hsource : ofSource source with
  | error e => simp [hsource, Except.toOption] at hd
  | ok d' =>
    obtain rfl := Option.some.inj ((congrArg Except.toOption hsource).symm.trans hd)
    rfl

/-- A document alone, with a chain whose position is finite. -/
def placedSource : String := "\x7b\"chains\":[\x7b\"id\":3,\"x\":40,\"y\":12.5\x7d]\x7d"

theorem resaved_placedSource : ∃ d, ofSource placedSource = .ok d ∧ d.coordinates = [40, 12.5] ∧
    ofSource d.toSource = .ok d := by
  have hmap : (ofSource placedSource).toOption.map (fun d => (d.coordinates, d.toProject.depth)) =
      some ([40, 12.5], 5) := by decide +kernel
  obtain ⟨d, hd, hparts⟩ := exists_of_toOption_map hmap
  obtain ⟨hcoordinates, hdepth⟩ := Prod.mk.inj hparts
  have hfinite : ∀ x ∈ d.coordinates, x.isFinite = true := by
    rw [hcoordinates]
    decide +kernel
  have hreads : ∀ x ∈ d.coordinates, x.isFinite = true → PrintsExactly x := by
    rw [hcoordinates]
    decide +kernel
  have hdepths : d.toProject.depth ≤ depthLimit := by
    rw [hdepth]
    decide
  have hsource := resaved_source hd hreads
  rw [if_pos hdepths, if_pos hfinite] at hsource
  exact ⟨d, hd, hcoordinates, hsource⟩

/-- A document alone, with a coordinate that is too great for a single. -/
def farSource : String := "\x7b\"chains\":[\x7b\"x\":1e39\x7d]\x7d"

/-- Blocks nested in slots, the innermost one without values. -/
def nestedTree : Nat → Json
  | 0 => .object [("type", .text "end_game")]
  | n + 1 => .object [("children", .array [nestedTree n]), ("type", .text "forever")]

/-- A document alone, with blocks nested in slots. -/
def deepTree (n : Nat) : Json :=
  .object [("chains", .array [.object [("blocks", .array [nestedTree n])]])]

theorem legible_nestedTree (n : Nat) : (nestedTree n).Legible := by
  induction n with
  | zero => exact ⟨trivial, trivial⟩
  | succ n ih => exact ⟨⟨ih, trivial⟩, trivial, trivial⟩

theorem ofSource_deepTree {n : Nat} {d : Document} (hdepth : (deepTree n).depth ≤ depthLimit)
    (hdecode : ofJson? (deepTree n).reread.settle = some d) :
    ofSource (deepTree n).pretty = .ok d := by
  have hlegible : (deepTree n).Legible :=
    ⟨⟨⟨⟨legible_nestedTree n, trivial⟩, trivial⟩, trivial⟩, trivial⟩
  have hvalue : (deepTree n).reread.settle =
      .object
        [("chains", (Json.array [.object [("blocks", .array [nestedTree n])]]).reread.settle)] :=
    congrArg Json.object (Table.entries_ofList (List.pairwise_singleton _ _))
  have hread := readValue?_pretty hlegible hdepth
  rw [hvalue] at hread hdecode
  simp [ofSource, hread, hdecode, member?, Table.search]

theorem ofSource_toSource_of_parts {source : String} {d : Document}
    {coordinates : List Float32} {depth : Nat} (h : ofSource source = .ok d)
    (hparts : (d.coordinates, d.toProject.depth) = (coordinates, depth))
    (reads : ∀ x ∈ coordinates, x.isFinite = true → PrintsExactly x) :
    ofSource d.toSource =
      if depth ≤ depthLimit then
        if ∀ x ∈ coordinates, x.isFinite = true then .ok d else .error .badProject
      else .error .malformed := by
  obtain ⟨rfl, rfl⟩ := Prod.mk.inj hparts
  exact ofSource_toSource (id_le_of_ofSource h) reads

/-- Two texts that are read, and are not read any more once they are saved. -/
theorem resaved_source_rejected :
    (∃ d, ofSource farSource = .ok d ∧ ofSource d.toSource = .error .badProject) ∧
      ∃ d, ofSource (deepTree 61).pretty = .ok d ∧ ofSource d.toSource = .error .malformed := by
  constructor
  · have hmap : (ofSource farSource).toOption.map (fun d => (d.coordinates, d.toProject.depth)) =
        some ([1 / 0, 0], 5) := by decide +kernel
    obtain ⟨d, hd, hparts⟩ := exists_of_toOption_map hmap
    have hsource := ofSource_toSource_of_parts hd hparts (by decide +kernel)
    rw [if_pos (by decide), if_neg (by decide +kernel)] at hsource
    exact ⟨d, hd, hsource⟩
  · have hmap : (ofJson? (deepTree 61).reread.settle).map
        (fun d => (d.coordinates, d.toProject.depth)) = some ([0, 0], 129) := by decide +kernel
    obtain ⟨d, hdecode, hparts⟩ := Option.map_eq_some_iff.mp hmap
    have hd := ofSource_deepTree (by decide +kernel) hdecode
    have hsource := ofSource_toSource_of_parts hd hparts (by decide +kernel)
    rw [if_neg (by decide)] at hsource
    exact ⟨d, hd, hsource⟩

end BlockStudio.Document
