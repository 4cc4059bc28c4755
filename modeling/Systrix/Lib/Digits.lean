import Mathlib.Algebra.BigOperators.Intervals
import Mathlib.Algebra.BigOperators.Ring.Finset
import Mathlib.Algebra.Order.BigOperators.Group.Finset
import Mathlib.Data.Nat.Bitwise
import Mathlib.Tactic.Common
import Mathlib.Tactic.Ring

/-!
# Numbers in base 256

The number that an array of bytes stands for, its digits, and the products in which no column of the schoolbook method
carries.
-/

namespace Digits

open Finset

/-- The number that the first digits of an array stand for, the lowest one first. -/
def value (n : Nat) (a : Nat → Nat) : Nat := ∑ i ∈ range n, a i * 256 ^ i

/-- A digit of a number. -/
def digit (x i : Nat) : Nat := x / 256 ^ i % 256

/-- A column of the schoolbook product. -/
def column (x y c : Nat) : Nat := ∑ j ∈ range (c + 1), digit x j * digit y (c - j)

/-- No column of the product carries into the next one, and none is beyond the first `n`. -/
structure NoCarry (n x y : Nat) : Prop where
  small : ∀ c < n, column x y c < 256
  none : ∀ c, n ≤ c → column x y c = 0

/-- The number in some bytes, the highest one first. -/
def ofBytes (bytes : List UInt8) : Nat := bytes.foldl (fun value byte => value * 256 + byte.toNat) 0

/-- A number in some bytes, the highest one first. -/
def toBytes (width x : Nat) : List UInt8 := (List.range width).map fun i => UInt8.ofNat (digit x (width - 1 - i))

/-! ## Values -/

variable {n : Nat} {a b : Nat → Nat}

@[simp] theorem value_zero (a : Nat → Nat) : value 0 a = 0 := sum_range_zero _

theorem value_succ (n : Nat) (a : Nat → Nat) : value (n + 1) a = value n a + a n * 256 ^ n := sum_range_succ _ _

theorem value_congr (same : ∀ i < n, a i = b i) : value n a = value n b :=
  sum_congr rfl fun i inside => by rw [same i (mem_range.mp inside)]

theorem value_lt (small : ∀ i < n, a i < 256) : value n a < 256 ^ n := by
  induction n with
  | zero => exact Nat.one_pos
  | succ n ih =>
      have below := ih fun i inside => small i (Nat.lt_succ_of_lt inside)
      have top := small n (Nat.lt_succ_self n)
      rw [value_succ, pow_succ]
      calc value n a + a n * 256 ^ n < 256 ^ n + a n * 256 ^ n := Nat.add_lt_add_right below _
        _ = (a n + 1) * 256 ^ n := by ring
        _ ≤ 256 * 256 ^ n := Nat.mul_le_mul_right _ top
        _ = 256 ^ n * 256 := Nat.mul_comm _ _

/-- The digits of a number stand for it. -/
theorem value_digit (x n : Nat) : value n (digit x) = x % 256 ^ n := by
  induction n with
  | zero => rw [value_zero, pow_zero, Nat.mod_one]
  | succ n ih => rw [value_succ, ih, pow_succ, Nat.mod_mul, digit, Nat.mul_comm]

/-- The number in an array has the digits of the array. -/
theorem digit_value (small : ∀ i < n, a i < 256) {i : Nat} (inside : i < n) : digit (value n a) i = a i := by
  induction n with
  | zero => exact absurd inside (Nat.not_lt_zero i)
  | succ n ih =>
      have smaller : ∀ i < n, a i < 256 := fun i inside => small i (Nat.lt_succ_of_lt inside)
      rw [value_succ, digit]
      rcases Nat.lt_or_eq_of_le (Nat.le_of_lt_succ inside) with below | rfl
      · have split : a n * 256 ^ n = a n * 256 ^ (n - i - 1) * 256 * 256 ^ i := by
          rw [Nat.mul_assoc, Nat.mul_assoc, ← pow_succ', ← pow_add]
          refine congrArg (fun k => a n * 256 ^ k) ?_
          omega
        rw [split, Nat.add_mul_div_right _ _ (Nat.pow_pos (by decide)), Nat.add_mul_mod_self_right]
        exact ih smaller below
      · rw [Nat.add_mul_div_right _ _ (Nat.pow_pos (by decide)), Nat.div_eq_of_lt (value_lt smaller), Nat.zero_add]
        exact Nat.mod_eq_of_lt (small i inside)

/-- There are no digits behind the highest one. -/
theorem digit_of_lt {x i : Nat} (small : x < 256 ^ i) : digit x i = 0 := by
  rw [digit, Nat.div_eq_of_lt small]

theorem digit_lt (x i : Nat) : digit x i < 256 := Nat.mod_lt _ (by decide)

/-- The top digit decides. -/
theorem value_lt_of_top (small : ∀ i < n, a i < 256) (top : a n < b n) : value (n + 1) a < value (n + 1) b := by
  have below := value_lt small
  rw [value_succ, value_succ]
  calc value n a + a n * 256 ^ n < 256 ^ n + a n * 256 ^ n := Nat.add_lt_add_right below _
    _ = (a n + 1) * 256 ^ n := by ring
    _ ≤ b n * 256 ^ n := Nat.mul_le_mul_right _ top
    _ ≤ value n b + b n * 256 ^ n := Nat.le_add_left _ _

/-! ## Products -/

/-- The columns of a product stand for it, if those behind the first `n` are empty. -/
theorem value_column {x y : Nat} (inside : x < 256 ^ n) (inside' : y < 256 ^ n)
    (empty : ∀ j k, n ≤ j + k → digit x j * digit y k = 0) : value n (column x y) = x * y := by
  have whole : ∀ {z : Nat}, z < 256 ^ n → z = ∑ i ∈ range n, digit z i * 256 ^ i := fun inside =>
    ((value_digit _ n).trans (Nat.mod_eq_of_lt inside)).symm
  calc value n (column x y)
      = ∑ c ∈ range n, ∑ j ∈ range (c + 1), digit x j * digit y (c - j) * 256 ^ (j + (c - j)) := by
        refine sum_congr rfl fun c _ => ?_
        rw [column, Finset.sum_mul]
        refine sum_congr rfl fun j inside => ?_
        rw [Nat.add_sub_of_le (Nat.le_of_lt_succ (mem_range.mp inside))]
    _ = ∑ j ∈ range n, ∑ k ∈ range (n - j), digit x j * digit y k * 256 ^ (j + k) :=
        sum_range_diag_flip n fun j k => digit x j * digit y k * 256 ^ (j + k)
    _ = ∑ j ∈ range n, ∑ k ∈ range n, digit x j * digit y k * 256 ^ (j + k) := by
        refine sum_congr rfl fun j _ => sum_subset (range_mono (Nat.sub_le n j)) fun k _ behind => ?_
        rw [empty j k (by have outside := mem_range.not.mp behind; omega), Nat.zero_mul]
    _ = (∑ j ∈ range n, digit x j * 256 ^ j) * ∑ k ∈ range n, digit y k * 256 ^ k := by
        rw [Finset.sum_mul_sum]
        refine sum_congr rfl fun j _ => sum_congr rfl fun k _ => ?_
        rw [pow_add]
        ring
    _ = x * y := by rw [← whole inside, ← whole inside']

theorem NoCarry.empty {x y : Nat} (noCarry : NoCarry n x y) (j k : Nat) (behind : n ≤ j + k) :
    digit x j * digit y k = 0 := by
  have zero := noCarry.none (j + k) behind
  rw [column] at zero
  have term := Finset.sum_eq_zero_iff.mp zero j (mem_range.mpr (by omega))
  rwa [Nat.add_sub_cancel_left] at term

/-- Columns that are cut to a byte, and left out behind the first `n`, give the product just where there are no
carries. -/
theorem value_cut_iff {x y : Nat} (inside : x < 256 ^ n) (inside' : y < 256 ^ n) :
    value n (fun c => column x y c % 256) = x * y ↔ NoCarry n x y := by
  constructor
  · intro exact
    have wider : ∀ {z : Nat}, z < 256 ^ n → z < 256 ^ (n + n) := fun below =>
      Nat.lt_of_lt_of_le below (Nat.pow_le_pow_right (by decide) (Nat.le_add_right n n))
    have far : ∀ j k, n + n ≤ j + k → digit x j * digit y k = 0 := by
      intro j k behind
      rcases Nat.lt_or_ge j n with low | high
      · rw [digit_of_lt (Nat.lt_of_lt_of_le inside' (Nat.pow_le_pow_right (by decide) (by omega : n ≤ k))), Nat.mul_zero]
      · rw [digit_of_lt (Nat.lt_of_lt_of_le inside (Nat.pow_le_pow_right (by decide) high)), Nat.zero_mul]
    have all := value_column (wider inside) (wider inside') far
    -- what is kept of a column is at most the column, and the sums are the same
    have atMost : ∀ c ∈ range (n + n), (if c < n then column x y c % 256 else 0) * 256 ^ c ≤ column x y c * 256 ^ c := by
      intro c _
      refine Nat.mul_le_mul_right _ ?_
      split
      · exact Nat.mod_le _ _
      · exact Nat.zero_le _
    have kept : ∑ c ∈ range (n + n), (if c < n then column x y c % 256 else 0) * 256 ^ c =
        ∑ c ∈ range (n + n), column x y c * 256 ^ c := by
      refine Eq.trans ?_ (exact.trans all.symm)
      refine Eq.trans (sum_subset (range_mono (Nat.le_add_right n n)) fun c _ behind => ?_).symm ?_
      · rw [if_neg (mem_range.not.mp behind), Nat.zero_mul]
      · exact sum_congr rfl fun c below => by rw [if_pos (mem_range.mp below)]
    have each : ∀ c < n + n, (if c < n then column x y c % 256 else 0) = column x y c := fun c below =>
      Nat.eq_of_mul_eq_mul_right (Nat.pow_pos (n := c) (by decide : 0 < 256))
        ((Finset.sum_eq_sum_iff_of_le atMost).mp kept c (mem_range.mpr below))
    refine ⟨fun c below => ?_, fun c behind => ?_⟩
    · have same := each c (Nat.lt_add_right n below)
      rw [if_pos below] at same
      rw [← same]
      exact Nat.mod_lt _ (by decide)
    · by_cases below : c < n + n
      · have same := each c below
        rw [if_neg (Nat.not_lt.mpr behind)] at same
        exact same.symm
      · refine Finset.sum_eq_zero fun j upTo => far j (c - j) ?_
        have early := mem_range.mp upTo
        omega
  · intro noCarry
    rw [← value_column inside inside' noCarry.empty]
    exact value_congr fun c below => Nat.mod_eq_of_lt (noCarry.small c below)

/-! ## Bytes -/

theorem ofBytes_append (front back : List UInt8) :
    ofBytes (front ++ back) = ofBytes front * 256 ^ back.length + ofBytes back := by
  induction back using List.reverseRecOn with
  | nil =>
      rw [List.append_nil, List.length_nil, pow_zero, Nat.mul_one]
      rfl
  | append_singleton back byte ih =>
      have snoc : ∀ bytes : List UInt8, ofBytes (bytes ++ [byte]) = ofBytes bytes * 256 + byte.toNat := fun bytes =>
        List.foldl_append
      rw [← List.append_assoc, snoc, snoc, ih, List.length_append, List.length_singleton, pow_succ]
      ring

theorem ofBytes_cons (byte : UInt8) (bytes : List UInt8) :
    ofBytes (byte :: bytes) = byte.toNat * 256 ^ bytes.length + ofBytes bytes := by
  have one : ofBytes [byte] = byte.toNat := by rw [ofBytes, List.foldl_cons, List.foldl_nil, Nat.zero_mul, Nat.zero_add]
  rw [← one, ← ofBytes_append, List.singleton_append]

/-- Zeros in front change nothing. -/
theorem ofBytes_padded (zeros : Nat) (bytes : List UInt8) : ofBytes (List.replicate zeros 0 ++ bytes) = ofBytes bytes := by
  induction zeros with
  | zero => rfl
  | succ zeros ih =>
      rw [List.replicate_succ, List.cons_append, ofBytes_cons, ih, UInt8.toNat_zero, Nat.zero_mul, Nat.zero_add]

/-- The number in some bytes, read from the last one. -/
theorem value_reversed (bytes : List UInt8) :
    value bytes.length (fun i => (bytes.getD (bytes.length - 1 - i) 0).toNat) = ofBytes bytes := by
  induction bytes with
  | nil => rfl
  | cons byte bytes ih =>
      rw [List.length_cons, value_succ, ofBytes_cons, ← ih, Nat.add_sub_cancel, Nat.sub_self, List.getD_cons_zero, Nat.add_comm]
      refine congrArg _ (value_congr fun i inside => ?_)
      have position : bytes.length - i = bytes.length - 1 - i + 1 := by omega
      rw [position, List.getD_cons_succ]

theorem ofBytes_lt (bytes : List UInt8) : ofBytes bytes < 256 ^ bytes.length := by
  rw [← value_reversed]
  exact value_lt fun i _ => UInt8.toNat_lt _

@[simp] theorem length_toBytes (width x : Nat) : (toBytes width x).length = width := by
  rw [toBytes, List.length_map, List.length_range]

theorem getD_toBytes {width x i : Nat} (inside : i < width) :
    (toBytes width x).getD i 0 = UInt8.ofNat (digit x (width - 1 - i)) := by
  rw [List.getD_eq_getElem _ _ (by rwa [length_toBytes])]
  simp only [toBytes, List.getElem_map, List.getElem_range]

/-- The bytes of a number stand for it. -/
theorem ofBytes_toBytes {width x : Nat} (fits : x < 256 ^ width) : ofBytes (toBytes width x) = x := by
  rw [← value_reversed, length_toBytes]
  refine (value_congr fun i inside => ?_).trans ((value_digit x width).trans (Nat.mod_eq_of_lt fits))
  rw [getD_toBytes (by omega), UInt8.toNat_ofNat_of_lt' (digit_lt _ _)]
  refine congrArg (digit x) ?_
  omega

end Digits
