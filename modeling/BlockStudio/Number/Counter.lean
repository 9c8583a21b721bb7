/-!
Counters of 64 bits that stay at their greatest value instead of wrapping. Ids, frames and drop
counts are counted this way; below the greatest value counting up is plain addition.
-/
namespace BlockStudio.Number

/-- The greatest value of a 64-bit counter. -/
def counterMax : Nat := 0xffffffffffffffff

/-- Counts up by `k` and stays at the greatest value. -/
def countUp (n k : Nat) : Nat :=
  min (n + k) counterMax

theorem countUp_le_max (n k : Nat) : countUp n k ≤ counterMax := Nat.min_le_right _ _

theorem countUp_le_add (n k : Nat) : countUp n k ≤ n + k := Nat.min_le_left _ _

theorem countUp_of_le {n k : Nat} (h : n + k ≤ counterMax) : countUp n k = n + k :=
  Nat.min_eq_left h

/-- A counter that has not run out was counted up in full. -/
theorem countUp_of_lt {n k : Nat} (h : countUp n k < counterMax) : countUp n k = n + k := by
  unfold countUp at h ⊢
  omega

/-- A counter that has not run out had not run out before. -/
theorem lt_of_countUp_lt {n k : Nat} (h : countUp n k < counterMax) : n < counterMax := by
  rw [countUp_of_lt h] at h
  omega

theorem le_countUp {n : Nat} (k : Nat) (h : n ≤ counterMax) : n ≤ countUp n k :=
  Nat.le_min.2 ⟨Nat.le_add_right _ _, h⟩

end BlockStudio.Number
