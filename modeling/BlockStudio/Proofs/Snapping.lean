import BlockStudio.Proofs.SingleOrder
import BlockStudio.Snap
import Mathlib.Data.List.Induction

/-!
The place where a dragged group attaches. A scan goes once over the candidates and keeps the better
one of the best so far and the next; what it has found is right of the candidates that it has seen,
whatever comes after them. Main statement: unless a distance is NaN, a group attaches at the first
of the nearest candidates, and nowhere just when a hat leads it, the threshold is no finite number
or every candidate is farther.
-/
namespace BlockStudio.Snap

/-- The candidate is within the threshold, nearer than all before it and no farther than any after
it. -/
structure IsNearest (threshold : Float32) (cs : List SnapCandidate) (c : SnapCandidate) : Prop where
  within : c.distance ≤ threshold
  first : ∃ front back, cs = front ++ c :: back ∧ (∀ d ∈ front, c.distance < d.distance) ∧
    ∀ d ∈ back, c.distance ≤ d.distance

/-- What a scan of some candidates has to find. -/
def Finds (threshold : Float32) (cs : List SnapCandidate) : Option SnapCandidate → Prop
  | none => ∀ c ∈ cs, threshold < c.distance
  | some c => IsNearest threshold cs c

section
variable {threshold : Float32} {cs : List SnapCandidate} {c d : SnapCandidate}

theorem IsNearest.mem (h : IsNearest threshold cs c) : c ∈ cs := by
  obtain ⟨-, front, back, rfl, -, -⟩ := h
  simp

theorem IsNearest.le (hcs : ∀ e ∈ cs, e.distance.isNaN = false) (h : IsNearest threshold cs c) :
    ∀ e ∈ cs, c.distance ≤ e.distance := by
  have hc := hcs c h.mem
  obtain ⟨-, front, back, rfl, hfront, hback⟩ := h
  intro e he
  rcases List.mem_append.1 he with hin | hin
  · exact Number.le_of_lt hc (hcs e he) (hfront e hin)
  · rcases List.mem_cons.1 hin with rfl | hin
    · exact (Number.le_iff_rank_le hc hc).2 le_rfl
    · exact hback e hin

/-- One more candidate is seen. -/
theorem Finds.consider {best : Option SnapCandidate} (hthreshold : threshold.isNaN = false)
    (hcs : ∀ e ∈ cs, e.distance.isNaN = false) (hd : d.distance.isNaN = false)
    (h : Finds threshold cs best) :
    Finds threshold (cs ++ [d]) (consider threshold best d) := by
  unfold Snap.consider
  split
  · rename_i hfar
    cases best with
    | none => exact List.forall_mem_append.2 ⟨h, List.forall_mem_singleton.2 hfar⟩
    | some b =>
      have hb := hcs b h.mem
      obtain ⟨hwithin, front, back, rfl, hfront, hback⟩ := h
      have hbd : b.distance ≤ d.distance :=
        Number.le_of_lt hb hd (Number.lt_of_le_lt hb hthreshold hd hwithin hfar)
      refine ⟨hwithin, front, back ++ [d], by simp, hfront, ?_⟩
      exact List.forall_mem_append.2 ⟨hback, List.forall_mem_singleton.2 hbd⟩
  · rename_i hfar
    have hnear : d.distance ≤ threshold := (Number.not_lt_iff_le hthreshold hd).1 hfar
    cases best with
    | none =>
      refine ⟨hnear, cs, [], rfl, fun e he => ?_, by simp⟩
      exact Number.lt_of_le_lt hd hthreshold (hcs e he) hnear (h e he)
    | some b =>
      have hb := hcs b h.mem
      dsimp only
      split
      · rename_i hlt
        refine ⟨hnear, cs, [], rfl, fun e he => ?_, by simp⟩
        exact Number.lt_of_lt_le hd hb (hcs e he) hlt (h.le hcs e he)
      · rename_i hge
        have hbd : b.distance ≤ d.distance := (Number.not_lt_iff_le hd hb).1 hge
        obtain ⟨hwithin, front, back, rfl, hfront, hback⟩ := h
        refine ⟨hwithin, front, back ++ [d], by simp, hfront, ?_⟩
        exact List.forall_mem_append.2 ⟨hback, List.forall_mem_singleton.2 hbd⟩

/-- Looking at the candidates one by one finds the nearest. The induction is on the candidates from
the left: what is found of those seen is right before the next one is looked at. -/
theorem finds_foldl (hthreshold : threshold.isNaN = false)
    (hcs : ∀ e ∈ cs, e.distance.isNaN = false) :
    Finds threshold cs (cs.foldl (Snap.consider threshold) none) := by
  induction cs using List.reverseRecOn with
  | nil => simp [Finds]
  | append_singleton cs d ih =>
    obtain ⟨hseen, hd⟩ := List.forall_mem_append.1 hcs
    rw [List.foldl_append, List.foldl_cons, List.foldl_nil]
    exact (ih hseen).consider hthreshold hseen (hd d List.mem_cons_self)

/-- There is only one first candidate among the nearest. -/
theorem IsNearest.unique (hcs : ∀ e ∈ cs, e.distance.isNaN = false) (hc : IsNearest threshold cs c)
    (hd : IsNearest threshold cs d) : c = d := by
  have hcle := hc.le hcs d hd.mem
  have hdle := hd.le hcs c hc.mem
  have hcnan := hcs c hc.mem
  have hdnan := hcs d hd.mem
  obtain ⟨-, front, back, rfl, hfront, -⟩ := hc
  obtain ⟨-, front', back', heq, hfront', -⟩ := hd
  rcases List.append_eq_append_iff.1 heq with ⟨between, rfl, hrest⟩ | ⟨between, rfl, hrest⟩
  · cases between with
    | nil => simpa using (List.cons.inj hrest).1
    | cons e between =>
      obtain ⟨rfl, -⟩ := List.cons.inj hrest
      exact absurd (hfront' c (by simp)) ((Number.not_lt_iff_le hdnan hcnan).2 hcle)
  · cases between with
    | nil => simpa using (List.cons.inj hrest).1.symm
    | cons e between =>
      obtain ⟨rfl, -⟩ := List.cons.inj hrest
      exact absurd (hfront d (by simp)) ((Number.not_lt_iff_le hcnan hdnan).2 hdle)

theorem Finds.eq_none_iff (hcs : ∀ e ∈ cs, e.distance.isNaN = false)
    (hthreshold : threshold.isNaN = false) {best : Option SnapCandidate}
    (h : Finds threshold cs best) :
    best = none ↔ ∀ e ∈ cs, threshold < e.distance := by
  cases best with
  | none => exact iff_of_true rfl h
  | some b =>
    simp only [reduceCtorEq, false_iff]
    exact fun hall => (Number.not_lt_iff_le hthreshold (hcs b h.mem)).2 h.within (hall b h.mem)

theorem Finds.eq_some_iff (hcs : ∀ e ∈ cs, e.distance.isNaN = false)
    (hthreshold : threshold.isNaN = false) {best : Option SnapCandidate}
    (h : Finds threshold cs best) : best = some c ↔ IsNearest threshold cs c := by
  cases best with
  | none =>
    simp only [reduceCtorEq, false_iff]
    exact fun hc => (Number.not_lt_iff_le hthreshold (hcs c hc.mem)).2 hc.within (h c hc.mem)
  | some b =>
    rw [Option.some.injEq]
    exact ⟨fun hbc => hbc ▸ h, fun hc => IsNearest.unique hcs h hc⟩

end

/-- A group attaches nowhere just when a hat leads it, the threshold is no finite number or every
candidate is farther; else it attaches at the candidate within the threshold that comes first among
the nearest. -/
theorem resolves_to_first_nearest (l : Layout) (p : Payload) (threshold : Float32)
    (hnan : ∀ c ∈ candidates l p, c.distance.isNaN = false) :
    (resolve? l p threshold = none ↔
      p.headIsHat = true ∨ threshold.isFinite = false ∨ ∀ c ∈ candidates l p,
        threshold < c.distance) ∧
    ∀ c, resolve? l p threshold = some c ↔
      p.headIsHat = false ∧ threshold.isFinite = true ∧ IsNearest threshold (candidates l p) c := by
  unfold resolve?
  cases hhat : p.headIsHat with
  | true => simp
  | false =>
    cases hfinite : threshold.isFinite with
    | false => simp
    | true =>
      have hthreshold := Number.isNaN_of_isFinite hfinite
      have hfinds := finds_foldl hthreshold hnan
      simpa using ⟨hfinds.eq_none_iff hnan hthreshold, fun c => hfinds.eq_some_iff hnan hthreshold⟩

/-- A block at the top left of the canvas, and below it another one with a gap as high as a block
and twenty more. -/
def gap : Graph where
  chains :=
    [⟨1, ⟨0, 0⟩, [⟨1, "wait", .empty, none, none⟩]⟩,
      ⟨2, ⟨0, 92⟩, [⟨2, "repeat_n", .empty, some [], none⟩]⟩]
  variableNames := []
  lastBlockId := 2
  lastChainId := 2

/-- A group of one block in the middle of the gap. -/
def between : Payload := ⟨⟨0, 46⟩, 36, false⟩

/-- The blocks above and below the group are equally near; it attaches to the one that is offered
first. -/
theorem resolves_to_first_nearest_between :
    (∀ c ∈ candidates (.ofGraph gap) between, c.distance.isNaN = false) ∧
    ((candidates (.ofGraph gap) between).map (·.distance)).filter (· ≤ 40) = [10, 10] ∧
    ∃ c, c.target = .appendAfter 1 ∧ resolve? (.ofGraph gap) between 40 = some c ∧
      IsNearest 40 (candidates (.ofGraph gap) between) c := by
  have hnan : ∀ c ∈ candidates (.ofGraph gap) between, c.distance.isNaN = false := by decide +kernel
  have htarget : (resolve? (.ofGraph gap) between 40).map (·.target) = some (.appendAfter 1) := by
    decide +kernel
  obtain ⟨c, hc, hfirst⟩ := Option.map_eq_some_iff.1 htarget
  obtain ⟨-, -, hnearest⟩ := ((resolves_to_first_nearest (.ofGraph gap) between 40 hnan).2 c).1 hc
  exact ⟨hnan, by decide +kernel, c, hfirst, hc, hnearest⟩

end BlockStudio.Snap
