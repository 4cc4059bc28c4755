import Mathlib.Algebra.Group.Action.Defs
import Mathlib.Algebra.GroupWithZero.Nat
import Mathlib.Algebra.Order.BigOperators.Group.List
import Mathlib.Algebra.Order.Ring.Nat
import Mathlib.Tactic.Common

/-!
# Dividing a range into boxes, and averages

A range of `n` elements is divided into `k` boxes as evenly as whole numbers allow, and a box is represented by the
average of its values.
-/

namespace Boxes

/-- Where box `i` of `k` begins. -/
def edge (n k i : Nat) : Nat := i * n / k

variable {n k i j p : Nat}

theorem edge_mono (le : i ≤ j) : edge n k i ≤ edge n k j := Nat.div_le_div_right (Nat.mul_le_mul_right n le)

theorem edge_last (some : 0 < k) : edge n k k = n := Nat.mul_div_cancel_left n some

theorem edge_lt (some : 0 < n) (inside : i < k) : edge n k i < n := by
  rw [edge, Nat.div_lt_iff_lt_mul (Nat.zero_lt_of_lt inside), Nat.mul_comm n k]
  exact Nat.mul_lt_mul_of_pos_right inside some

/-- With fewer boxes than elements no box is empty. -/
theorem edge_lt_succ (some : 0 < k) (fewer : k ≤ n) (i : Nat) : edge n k i < edge n k (i + 1) := by
  rw [edge, edge, Nat.lt_iff_add_one_le, ← Nat.add_div_right _ some, Nat.succ_mul]
  exact Nat.div_le_div_right (Nat.add_le_add_left fewer _)

/-- With more boxes than elements a box has at most one. -/
theorem edge_succ_le (some : 0 < k) (more : n ≤ k) (i : Nat) : edge n k (i + 1) ≤ edge n k i + 1 := by
  rw [edge, edge, ← Nat.add_div_right _ some, Nat.succ_mul]
  exact Nat.div_le_div_right (Nat.add_le_add_left more _)

/-- A value between the first and the last edge is between two neighbouring ones. -/
theorem exists_between {f : Nat → Nat} (first : f 0 ≤ p) (last : p < f k) : ∃ i < k, f i ≤ p ∧ p < f (i + 1) := by
  induction k with
  | zero => exact absurd last (Nat.not_lt.mpr first)
  | succ k ih =>
      by_cases below : p < f k
      · obtain ⟨i, inside, between⟩ := ih below
        exact ⟨i, Nat.lt_succ_of_lt inside, between⟩
      · exact ⟨k, Nat.lt_succ_self k, Nat.not_lt.mp below, last⟩

/-- Every element is in one box. -/
theorem existsUnique_box (some : 0 < k) (inside : p < n) : ∃! i, i < k ∧ edge n k i ≤ p ∧ p < edge n k (i + 1) := by
  have first : edge n k 0 ≤ p := by
    rw [edge, Nat.zero_mul, Nat.zero_div]
    exact Nat.zero_le p
  obtain ⟨i, below, between⟩ := exists_between first (by rwa [edge_last some])
  refine ⟨i, ⟨below, between⟩, fun j other => ?_⟩
  by_contra apart
  rcases Nat.lt_or_gt_of_ne apart with before | behind
  · have edges : edge n k (j + 1) ≤ edge n k i := edge_mono before
    omega
  · have edges : edge n k (i + 1) ≤ edge n k j := edge_mono behind
    omega

/-! ## Averages -/

variable {values : List Nat}

theorem le_average {low : Nat} (some : values ≠ []) (above : ∀ v ∈ values, low ≤ v) :
    low ≤ values.sum / values.length := by
  rw [Nat.le_div_iff_mul_le (List.length_pos_iff.mpr some), Nat.mul_comm, ← smul_eq_mul]
  exact List.card_nsmul_le_sum values low above

theorem average_le {high : Nat} (below : ∀ v ∈ values, v ≤ high) : values.sum / values.length ≤ high := by
  refine Nat.div_le_of_le_mul ?_
  rw [← smul_eq_mul]
  exact List.sum_le_card_nsmul values high below

/-- The average of a box is between the smallest and the largest of its values. -/
theorem average_between (some : values ≠ []) :
    (∃ v ∈ values, v ≤ values.sum / values.length) ∧ ∃ v ∈ values, values.sum / values.length ≤ v := by
  constructor
  · by_contra none
    have above : ∀ v ∈ values, values.sum / values.length + 1 ≤ v := fun v member =>
      Nat.lt_of_not_le fun le => none ⟨v, member, le⟩
    exact absurd (le_average some above) (Nat.not_succ_le_self _)
  · by_contra none
    obtain ⟨v, member⟩ := List.exists_mem_of_ne_nil values some
    have below : ∀ v ∈ values, v + 1 ≤ values.sum / values.length := fun v member =>
      Nat.lt_of_not_le fun le => none ⟨v, member, le⟩
    have smaller : values.sum / values.length ≤ values.sum / values.length - 1 :=
      average_le fun v member => Nat.le_sub_one_of_lt (below v member)
    have positive := below v member
    omega

end Boxes
