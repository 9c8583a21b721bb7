import Mathlib.Data.Prod.Lex
import Mathlib.Order.Compare
import Mathlib.Algebra.Order.Ring.Int

/-!
The order of single-precision numbers. All numbers but NaN stand in the linear order of their ranks,
in which the two zeros share a place; NaN is neither less nor greater than anything.
-/
namespace BlockStudio.Number

open Float.Model (UnpackedFloat)

theorem compare_natCast (m n : ℕ) : compare (m : ℤ) n = compare m n := by
  rw [← cmp_eq_compare, ← cmp_eq_compare, Nat.strictMono_cast.cmp_map_eq]

theorem compare_neg (a b : ℤ) : compare (-a) (-b) = (compare a b).swap := by
  have hanti : StrictAnti fun x : ℤ => -x := fun _ _ => Int.neg_lt_neg
  rw [← cmp_eq_compare, ← cmp_eq_compare, cmp_swap]
  exact hanti.cmp_map_eq a b

/-- The place of a number in the order: the infinities are at the ends, and finite numbers of one
sign are compared by their exponents and then by their mantissas. -/
def unpackedRank : UnpackedFloat → ℤ ×ₗ ℤ ×ₗ ℤ
  | .infinity .negative => toLex (-2, toLex (0, 0))
  | .finite .negative m e _ => toLex (-1, toLex (-e, -m))
  | .zero _ | .notANumber => toLex (0, toLex (0, 0))
  | .finite .positive m e _ => toLex (1, toLex (e, m))
  | .infinity .positive => toLex (2, toLex (0, 0))

theorem compare_unpacked {a b : UnpackedFloat} (ha : a.isNaN = false) (hb : b.isNaN = false) :
    a.compare b = some (compare (unpackedRank a) (unpackedRank b)) := by
  rcases a with s | _ | s | ⟨s, m, e, _⟩ <;> rcases b with t | _ | t | ⟨t, n, f, _⟩
  case infinity.infinity | zero.zero | infinity.zero | zero.infinity | infinity.finite |
    finite.infinity | zero.finite | finite.zero => cases s <;> cases t <;> rfl
  case finite.finite =>
    cases s <;> cases t
    case negative.positive | positive.negative => rfl
    case positive.positive =>
      show some ((compare e f).then (compare m n)) = some ((compare e f).then (compare (m : ℤ) n))
      rw [compare_natCast]
    case negative.negative =>
      show some ((compare e f).then (compare m n)).swap =
        some ((compare (-e) (-f)).then (compare (-m : ℤ) (-n)))
      rw [compare_neg, compare_neg, compare_natCast, Ordering.swap_then]
  all_goals contradiction

def rank (x : Float32) : ℤ ×ₗ ℤ ×ₗ ℤ := unpackedRank x.toModel.unpack

section
variable {x y : Float32}

theorem isNaN_of_isFinite (h : x.isFinite = true) : x.isNaN = false := by
  have hunpacked : ∀ a : UnpackedFloat, a.isFinite = true → a.isNaN = false := by
    intro a ha
    cases a with
    | notANumber => cases ha
    | _ => rfl
  exact hunpacked _ h

theorem lt_iff_rank_lt (hx : x.isNaN = false) (hy : y.isNaN = false) : x < y ↔ rank x < rank y := by
  have hlt : x < y ↔ x.toModel.unpack.lt y.toModel.unpack = true := by
    show decide (x.toModel < y.toModel) = true ↔ _
    exact decide_eq_true_iff
  rw [hlt, UnpackedFloat.lt, compare_unpacked hx hy, beq_iff_eq, Option.some.injEq,
    compare_lt_iff_lt]
  rfl

theorem le_iff_rank_le (hx : x.isNaN = false) (hy : y.isNaN = false) : x ≤ y ↔ rank x ≤ rank y := by
  have hle : x ≤ y ↔ x.toModel.unpack.le y.toModel.unpack = true := by
    show decide (x.toModel ≤ y.toModel) = true ↔ _
    exact decide_eq_true_iff
  rw [hle, UnpackedFloat.le, compare_unpacked hx hy, Option.any_some,
    ← Ordering.ne_gt_iff_isLE, ← ne_eq, compare_le_iff_le]
  rfl

theorem not_lt_iff_le (hx : x.isNaN = false) (hy : y.isNaN = false) : ¬x < y ↔ y ≤ x := by
  rw [lt_iff_rank_lt hx hy, le_iff_rank_le hy hx, not_lt]

variable {z : Float32}

theorem lt_of_lt_le (hx : x.isNaN = false) (hy : y.isNaN = false) (hz : z.isNaN = false)
    (h : x < y) (h' : y ≤ z) :
    x < z := by
  rw [lt_iff_rank_lt hx hy] at h
  rw [le_iff_rank_le hy hz] at h'
  exact (lt_iff_rank_lt hx hz).2 (h.trans_le h')

theorem lt_of_le_lt (hx : x.isNaN = false) (hy : y.isNaN = false) (hz : z.isNaN = false)
    (h : x ≤ y) (h' : y < z) :
    x < z := by
  rw [le_iff_rank_le hx hy] at h
  rw [lt_iff_rank_lt hy hz] at h'
  exact (lt_iff_rank_lt hx hz).2 (h.trans_lt h')

theorem le_of_lt (hx : x.isNaN = false) (hy : y.isNaN = false) (h : x < y) : x ≤ y :=
  (le_iff_rank_le hx hy).2 ((lt_iff_rank_lt hx hy).1 h).le

end

end BlockStudio.Number
