import Mathlib.Algebra.Order.Ring.Int
import Mathlib.Data.Nat.Bitwise
import Mathlib.Tactic.Common
import Mathlib.Tactic.Linarith
import Mathlib.Tactic.Ring

/-!
# Checked arithmetic

The helpers for 64-bit arithmetic of `libc/systrix_libc.c`.  A checked operation returns whether it overflowed and what
it stored.  Signed sums and negations wrap around.
-/

namespace Systrix.Libc

def int64Max : Int := 2 ^ 63 - 1

def int64Min : Int := -2 ^ 63

def uint64Max : BitVec 64 := BitVec.allOnes 64

def slibcAddOverflowU64 (a b : BitVec 64) : Bool × Option (BitVec 64) := (decide (a + b < a), some (a + b))

def slibcMulOverflowU64 (a b : BitVec 64) : Bool × Option (BitVec 64) :=
  if a ≠ 0 ∧ uint64Max / a < b then (true, none) else (false, some (a * b))

def slibcAddOverflowI64 (a b : BitVec 64) : Bool × Option (BitVec 64) :=
  let out := a + b
  if 0 < b.toInt ∧ out.toInt < a.toInt then (true, some out)
  else if b.toInt < 0 ∧ a.toInt < out.toInt then (true, some out)
  else (false, some out)

def slibcMulOverflowI64 (a b : BitVec 64) : Bool × Option (BitVec 64) :=
  if a = 0 ∨ b = 0 then (false, some 0)
  else if 0 < a.toInt ∧ 0 < b.toInt ∧ int64Max.tdiv b.toInt < a.toInt then (true, none)
  else if a.toInt < 0 ∧ b.toInt < 0 ∧ a.toInt < int64Max.tdiv b.toInt then (true, none)
  else if 0 < a.toInt ∧ b.toInt < 0 ∧ b.toInt < int64Min.tdiv a.toInt then (true, none)
  else if a.toInt < 0 ∧ 0 < b.toInt ∧ a.toInt < int64Min.tdiv b.toInt then (true, none)
  else (false, some (a * b))

def slibcGcd (a b : BitVec 64) : BitVec 64 := if b ≠ 0 then slibcGcd b (a % b) else a
termination_by b.toNat
decreasing_by
  rename_i more
  have positive : 0 < b.toNat := Nat.pos_of_ne_zero fun none => more (BitVec.eq_of_toNat_eq none)
  rw [BitVec.toNat_umod]
  exact Nat.mod_lt _ positive

def slibcLcm (a b : BitVec 64) : BitVec 64 :=
  if a = 0 ∨ b = 0 then 0
  else
    match slibcMulOverflowU64 (a / slibcGcd a b) b with
    | (false, some out) => out
    | _ => 0

def slibcSatAddU64 (a b : BitVec 64) : BitVec 64 := if a + b < a then uint64Max else a + b

def slibcSatSubU64 (a b : BitVec 64) : BitVec 64 := if a < b then 0 else a - b

def slibcSatAddI64 (a b : BitVec 64) : BitVec 64 :=
  match slibcAddOverflowI64 a b with
  | (false, some r) => r
  | _ => if 0 < b.toInt then BitVec.ofInt 64 int64Max else BitVec.ofInt 64 int64Min

def slibcSatSubI64 (a b : BitVec 64) : BitVec 64 :=
  match slibcAddOverflowI64 a (-b) with
  | (false, some r) => r
  | _ => if b.toInt < 0 then BitVec.ofInt 64 int64Max else BitVec.ofInt 64 int64Min

def slibcDivRoundUp (n d : BitVec 64) : BitVec 64 := (n + d - 1).sdiv d

def slibcUdivRoundUp (n d : BitVec 64) : BitVec 64 := (n + d - 1) / d

/-! ## The contract -/

/-- The operation reports whether `exact` fits, and stores it if it does. -/
def Checked (fits : Int → Prop) (value : BitVec 64 → Int) (exact : Int) (result : Bool × Option (BitVec 64)) : Prop :=
  (result.1 = true ↔ ¬fits exact) ∧ (fits exact → ∃ out, result.2 = some out ∧ value out = exact)

/-- The unsigned numbers of 64 bits. -/
def FitsU64 (n : Int) : Prop := 0 ≤ n ∧ n < 2 ^ 64

/-- The signed numbers of 64 bits. -/
def FitsI64 (n : Int) : Prop := int64Min ≤ n ∧ n ≤ int64Max

/-- The nearest number of a range. -/
def clamp (low high n : Int) : Int := max low (min high n)

/-- `q` is `n / d` rounded up. -/
def IsCeil (n d q : Int) : Prop := n ≤ q * d ∧ (q - 1) * d < n

/-- What the helpers promise for two arguments, which are signed or unsigned as the helper takes them. -/
structure ArithmeticOk (a b : BitVec 64) : Prop where
  addU : Checked FitsU64 (fun x => x.toNat) (a.toNat + b.toNat) (slibcAddOverflowU64 a b)
  mulU : Checked FitsU64 (fun x => x.toNat) (a.toNat * b.toNat) (slibcMulOverflowU64 a b)
  addI : Checked FitsI64 BitVec.toInt (a.toInt + b.toInt) (slibcAddOverflowI64 a b)
  mulI : Checked FitsI64 BitVec.toInt (a.toInt * b.toInt) (slibcMulOverflowI64 a b)
  lcm_zero : slibcLcm a b = 0 ↔ a = 0 ∨ b = 0 ∨ ¬FitsU64 (a.toNat.lcm b.toNat)
  lcm : FitsU64 (a.toNat.lcm b.toNat) → (slibcLcm a b).toNat = a.toNat.lcm b.toNat
  satAddU : ((slibcSatAddU64 a b).toNat : Int) = clamp 0 (2 ^ 64 - 1) (a.toNat + b.toNat)
  satSubU : ((slibcSatSubU64 a b).toNat : Int) = clamp 0 (2 ^ 64 - 1) (a.toNat - b.toNat)
  satAddI : (slibcSatAddI64 a b).toInt = clamp int64Min int64Max (a.toInt + b.toInt)
  satSubI : (slibcSatSubI64 a b).toInt = clamp int64Min int64Max (a.toInt - b.toInt)
  divRoundUp : 0 < b.toInt → IsCeil a.toInt b.toInt (slibcDivRoundUp a b).toInt
  udivRoundUp : 0 < b.toNat → IsCeil a.toNat b.toNat (slibcUdivRoundUp a b).toNat

end Systrix.Libc

/-!
## What the checked helpers compute

The checked operations, the least common multiple and the saturating sums are right for all arguments.  The saturating
difference negates its second argument, which has no negative at `INT64_MIN`; the rounding divisions add `d - 1` first,
which can wrap around, and the signed one truncates toward zero.
-/

namespace Systrix.Libc

/-! ## Signed numbers of 64 bits -/

theorem toInt_bounds (x : BitVec 64) : int64Min ≤ x.toInt ∧ x.toInt ≤ int64Max := by
  have low := x.le_toInt
  have high := x.toInt_lt
  unfold int64Min int64Max
  omega

/-- A sum wraps around at most once. -/
theorem toInt_add_wrap (a b : BitVec 64) :
    (FitsI64 (a.toInt + b.toInt) ∧ (a + b).toInt = a.toInt + b.toInt)
      ∨ (int64Max < a.toInt + b.toInt ∧ (a + b).toInt = a.toInt + b.toInt - 2 ^ 64)
      ∨ (a.toInt + b.toInt < int64Min ∧ (a + b).toInt = a.toInt + b.toInt + 2 ^ 64) := by
  have first := toInt_bounds a
  have second := toInt_bounds b
  rw [BitVec.toInt_add, Int.bmod_def]
  unfold FitsI64 int64Min int64Max at *
  split <;> omega

theorem toInt_mul_of_fits {a b : BitVec 64} (fits : FitsI64 (a.toInt * b.toInt)) :
    (a * b).toInt = a.toInt * b.toInt := by
  rw [BitVec.toInt_mul]
  unfold FitsI64 int64Min int64Max at fits
  apply Int.bmod_eq_of_le <;> omega

/-- Every number but the least one has its negative. -/
theorem toInt_neg_of_ne_min {b : BitVec 64} (other : b.toInt ≠ int64Min) : (-b).toInt = -b.toInt := by
  have bounds := toInt_bounds b
  rw [BitVec.toInt_neg]
  unfold int64Min int64Max at *
  apply Int.bmod_eq_of_le <;> omega

theorem toInt_ofInt_max : (BitVec.ofInt 64 int64Max).toInt = int64Max := by decide

theorem toInt_ofInt_min : (BitVec.ofInt 64 int64Min).toInt = int64Min := by decide

theorem clamp_of_fits {n : Int} (fits : FitsI64 n) : clamp int64Min int64Max n = n := by
  unfold clamp
  unfold FitsI64 at fits
  omega

theorem clamp_of_high {n : Int} (high : int64Max < n) : clamp int64Min int64Max n = int64Max := by
  unfold clamp int64Min
  unfold int64Max at *
  omega

theorem clamp_of_low {n : Int} (low : n < int64Min) : clamp int64Min int64Max n = int64Min := by
  unfold clamp int64Max
  unfold int64Min at *
  omega

/-! ## Checked operations -/

theorem slibcAddOverflowU64_checked (a b : BitVec 64) :
    Checked FitsU64 (fun x => x.toNat) (a.toNat + b.toNat) (slibcAddOverflowU64 a b) := by
  have first := a.isLt
  have second := b.isLt
  have sum : (a + b).toNat = (a.toNat + b.toNat) % 2 ^ 64 := BitVec.toNat_add a b
  refine ⟨?_, fun fits => ⟨a + b, rfl, ?_⟩⟩
  · simp only [slibcAddOverflowU64, decide_eq_true_eq, BitVec.lt_def, sum, FitsU64]
    omega
  · simp only [sum]
    unfold FitsU64 at fits
    omega

theorem mulOverflowU64_iff (a b : BitVec 64) : (a ≠ 0 ∧ uint64Max / a < b) ↔ 2 ^ 64 ≤ a.toNat * b.toNat := by
  have max : uint64Max.toNat = 2 ^ 64 - 1 := by decide
  by_cases none : a = 0
  · simp [none]
  · have positive : 0 < a.toNat := Nat.pos_of_ne_zero fun zero => none (BitVec.eq_of_toNat_eq zero)
    rw [BitVec.lt_def, BitVec.toNat_udiv, max, Nat.div_lt_iff_lt_mul positive, Nat.mul_comm]
    simp only [ne_eq, none, not_false_eq_true, true_and]
    omega

theorem slibcMulOverflowU64_checked (a b : BitVec 64) :
    Checked FitsU64 (fun x => x.toNat) (a.toNat * b.toNat) (slibcMulOverflowU64 a b) := by
  have exact : (a.toNat : Int) * b.toNat = (a.toNat * b.toNat : Nat) := by push_cast; rfl
  have overflow := mulOverflowU64_iff a b
  unfold Checked FitsU64 slibcMulOverflowU64
  rw [exact]
  split
  case isTrue wraps =>
    have large := overflow.mp wraps
    refine ⟨⟨fun _ => by omega, fun _ => rfl⟩, fun fits => by omega⟩
  case isFalse kept =>
    have small : a.toNat * b.toNat < 2 ^ 64 := Nat.lt_of_not_le fun large => kept (overflow.mpr large)
    refine ⟨⟨fun no => by simp at no, fun no => by omega⟩, fun _ => ⟨a * b, rfl, ?_⟩⟩
    show ((a * b).toNat : Int) = _
    rw [BitVec.toNat_mul, Nat.mod_eq_of_lt small]

theorem slibcAddOverflowI64_checked (a b : BitVec 64) :
    Checked FitsI64 BitVec.toInt (a.toInt + b.toInt) (slibcAddOverflowI64 a b) := by
  have first := toInt_bounds a
  have second := toInt_bounds b
  unfold Checked slibcAddOverflowI64
  rcases toInt_add_wrap a b with ⟨fits, sum⟩ | ⟨high, sum⟩ | ⟨low, sum⟩
  · rw [if_neg (by omega), if_neg (by omega)]
    exact ⟨by simp [fits], fun _ => ⟨_, rfl, sum⟩⟩
  · have unfit : ¬FitsI64 (a.toInt + b.toInt) := fun fits => by unfold FitsI64 at fits; omega
    rw [if_pos (by unfold int64Max at *; omega)]
    exact ⟨by simp [unfit], fun fits => absurd fits unfit⟩
  · have unfit : ¬FitsI64 (a.toInt + b.toInt) := fun fits => by unfold FitsI64 at fits; omega
    rw [if_neg (by unfold int64Min at *; omega), if_pos (by unfold int64Min at *; omega)]
    exact ⟨by simp [unfit], fun fits => absurd fits unfit⟩

/-- A quotient that is truncated toward zero, for a negative divisor or dividend. -/
theorem tdiv_lt_iff {m y x : Int} (nonneg : 0 ≤ m) (positive : 0 < y) : m.tdiv y < x ↔ m < x * y := by
  rw [Int.tdiv_eq_ediv_of_nonneg nonneg]
  exact Int.ediv_lt_iff_lt_mul positive

theorem mulOverflowI64_iff {x y : Int} (left : x ≠ 0) (right : y ≠ 0) :
    ((0 < x ∧ 0 < y ∧ int64Max.tdiv y < x) ∨ (x < 0 ∧ y < 0 ∧ x < int64Max.tdiv y)
      ∨ (0 < x ∧ y < 0 ∧ y < int64Min.tdiv x) ∨ (x < 0 ∧ 0 < y ∧ x < int64Min.tdiv y)) ↔ ¬FitsI64 (x * y) := by
  have max : (0 : Int) ≤ int64Max := by decide
  have min : (0 : Int) ≤ -int64Min := by decide
  rcases Int.lt_or_gt_of_ne left with xneg | xpos <;> rcases Int.lt_or_gt_of_ne right with yneg | ypos
  · have sign : 0 < x * y := Int.mul_pos_of_neg_of_neg xneg yneg
    have test : x < int64Max.tdiv y ↔ int64Max < x * y := by
      have swap := tdiv_lt_iff (y := -y) (x := -x) max (by omega)
      rw [Int.tdiv_neg, Int.neg_mul_neg] at swap
      omega
    unfold FitsI64
    omega
  · have sign : x * y < 0 := Int.mul_neg_of_neg_of_pos xneg ypos
    have test : x < int64Min.tdiv y ↔ x * y < int64Min := by
      have swap := tdiv_lt_iff (y := y) (x := -x) min ypos
      rw [Int.neg_tdiv, Int.neg_mul] at swap
      omega
    unfold FitsI64
    omega
  · have sign : x * y < 0 := Int.mul_neg_of_pos_of_neg xpos yneg
    have test : y < int64Min.tdiv x ↔ x * y < int64Min := by
      have swap := tdiv_lt_iff (y := x) (x := -y) min xpos
      rw [Int.neg_tdiv, Int.neg_mul, Int.mul_comm] at swap
      omega
    unfold FitsI64
    omega
  · have sign : 0 < x * y := Int.mul_pos xpos ypos
    have test := tdiv_lt_iff (y := y) (x := x) max ypos
    unfold FitsI64
    omega

theorem slibcMulOverflowI64_checked (a b : BitVec 64) :
    Checked FitsI64 BitVec.toInt (a.toInt * b.toInt) (slibcMulOverflowI64 a b) := by
  unfold Checked slibcMulOverflowI64
  by_cases zero : a = 0 ∨ b = 0
  · rw [if_pos zero]
    have exact : a.toInt * b.toInt = 0 := by rcases zero with rfl | rfl <;> simp
    rw [exact]
    exact ⟨by simp [FitsI64, int64Min, int64Max], fun _ => ⟨0, rfl, rfl⟩⟩
  · have left : a.toInt ≠ 0 := fun none => zero (.inl (BitVec.eq_of_toInt_eq none))
    have right : b.toInt ≠ 0 := fun none => zero (.inr (BitVec.eq_of_toInt_eq none))
    have overflow := mulOverflowI64_iff left right
    rw [if_neg zero]
    by_cases fits : FitsI64 (a.toInt * b.toInt)
    · have clear := fun wraps => overflow.mp wraps fits
      rw [if_neg (fun h => clear (.inl h)), if_neg (fun h => clear (.inr (.inl h))),
        if_neg (fun h => clear (.inr (.inr (.inl h)))), if_neg (fun h => clear (.inr (.inr (.inr h))))]
      exact ⟨by simp [fits], fun _ => ⟨_, rfl, toInt_mul_of_fits fits⟩⟩
    · have wraps := overflow.mpr fits
      refine ⟨⟨fun _ => fits, fun _ => ?_⟩, fun yes => absurd yes fits⟩
      rcases wraps with h | h | h | h <;> simp [h, Int.lt_asymm h.1]

/-! ## The least common multiple -/

theorem slibcGcd_toNat (a b : BitVec 64) : (slibcGcd a b).toNat = a.toNat.gcd b.toNat := by
  induction a, b using slibcGcd.induct with
  | case1 a b more ih =>
    rw [slibcGcd, if_pos more, ih, BitVec.toNat_umod, Nat.gcd_comm b.toNat, ← Nat.gcd_rec, Nat.gcd_comm]
  | case2 a b done =>
    have zero : b = 0 := by simpa using done
    rw [slibcGcd, if_neg done, zero]
    simp

theorem lcm_eq_div_mul (m n : Nat) : m.lcm n = m / m.gcd n * n := by
  rw [Nat.lcm_eq_mul_div, Nat.div_mul_right_comm (Nat.gcd_dvd_left m n)]

theorem slibcLcm_eq {a b : BitVec 64} (left : a ≠ 0) (right : b ≠ 0) :
    (slibcLcm a b).toNat = if a.toNat.lcm b.toNat < 2 ^ 64 then a.toNat.lcm b.toNat else 0 := by
  have exact : (a / slibcGcd a b).toNat * b.toNat = a.toNat.lcm b.toNat := by
    rw [BitVec.toNat_udiv, slibcGcd_toNat, lcm_eq_div_mul]
  have overflow := mulOverflowU64_iff (a / slibcGcd a b) b
  rw [exact] at overflow
  rw [slibcLcm, if_neg (not_or.mpr ⟨left, right⟩), slibcMulOverflowU64]
  by_cases large : a / slibcGcd a b ≠ 0 ∧ uint64Max / (a / slibcGcd a b) < b
  · rw [if_pos large, if_neg (Nat.not_lt.mpr (overflow.mp large))]
    rfl
  · have small := Nat.lt_of_not_le fun wraps => large (overflow.mpr wraps)
    rw [if_neg large, if_pos small]
    show (a / slibcGcd a b * b).toNat = _
    rw [BitVec.toNat_mul, exact, Nat.mod_eq_of_lt small]

theorem fitsU64_nat (n : Nat) : FitsU64 n ↔ n < 2 ^ 64 := by
  unfold FitsU64
  omega

theorem slibcLcm_zero (a b : BitVec 64) : slibcLcm a b = 0 ↔ a = 0 ∨ b = 0 ∨ ¬FitsU64 (a.toNat.lcm b.toNat) := by
  by_cases zero : a = 0 ∨ b = 0
  · rw [slibcLcm, if_pos zero]
    simp only [true_iff]
    exact zero.imp id .inl
  · obtain ⟨left, right⟩ := not_or.mp zero
    have value := slibcLcm_eq left right
    have positive : 0 < a.toNat.lcm b.toNat := Nat.lcm_pos (Nat.pos_of_ne_zero fun none => left
      (BitVec.eq_of_toNat_eq none)) (Nat.pos_of_ne_zero fun none => right (BitVec.eq_of_toNat_eq none))
    have same : slibcLcm a b = 0 ↔ (slibcLcm a b).toNat = 0 :=
      ⟨fun none => by simp [none], fun none => BitVec.eq_of_toNat_eq none⟩
    rw [same, value, fitsU64_nat]
    simp only [left, right, false_or]
    split <;> omega

theorem slibcLcm_exact {a b : BitVec 64} (fits : FitsU64 (a.toNat.lcm b.toNat)) :
    (slibcLcm a b).toNat = a.toNat.lcm b.toNat := by
  by_cases zero : a = 0 ∨ b = 0
  · rw [slibcLcm, if_pos zero]
    rcases zero with rfl | rfl <;> simp
  · obtain ⟨left, right⟩ := not_or.mp zero
    rw [slibcLcm_eq left right, if_pos ((fitsU64_nat _).mp fits)]

/-! ## Saturating operations -/

theorem slibcSatAddU64_exact (a b : BitVec 64) :
    ((slibcSatAddU64 a b).toNat : Int) = clamp 0 (2 ^ 64 - 1) (a.toNat + b.toNat) := by
  have first := a.isLt
  have second := b.isLt
  have sum : (a + b).toNat = (a.toNat + b.toNat) % 2 ^ 64 := BitVec.toNat_add a b
  have max : uint64Max.toNat = 2 ^ 64 - 1 := by decide
  unfold slibcSatAddU64 clamp
  simp only [BitVec.lt_def]
  split <;> omega

theorem slibcSatSubU64_exact (a b : BitVec 64) :
    ((slibcSatSubU64 a b).toNat : Int) = clamp 0 (2 ^ 64 - 1) (a.toNat - b.toNat) := by
  have first := a.isLt
  have second := b.isLt
  unfold slibcSatSubU64 clamp
  simp only [BitVec.lt_def]
  split
  case isTrue less =>
    show ((0 : Nat) : Int) = _
    omega
  case isFalse more =>
    rw [BitVec.toNat_sub_of_le (BitVec.le_def.mpr (Nat.le_of_not_lt more))]
    omega

theorem slibcSatAddI64_exact (a b : BitVec 64) :
    (slibcSatAddI64 a b).toInt = clamp int64Min int64Max (a.toInt + b.toInt) := by
  have first := toInt_bounds a
  have second := toInt_bounds b
  unfold slibcSatAddI64 slibcAddOverflowI64
  rcases toInt_add_wrap a b with ⟨fits, sum⟩ | ⟨high, sum⟩ | ⟨low, sum⟩
  · rw [if_neg (by omega), if_neg (by omega), clamp_of_fits fits]
    exact sum
  · rw [if_pos (by unfold int64Max at *; omega), clamp_of_high high]
    simp only [if_pos (show 0 < b.toInt by unfold int64Max at *; omega)]
    exact toInt_ofInt_max
  · rw [if_neg (by unfold int64Min at *; omega), if_pos (by unfold int64Min at *; omega), clamp_of_low low]
    simp only [if_neg (show ¬0 < b.toInt by unfold int64Min at *; omega)]
    exact toInt_ofInt_min

/-- The saturating difference is the saturating sum with the negative, but for the value it saturates to. -/
theorem slibcSatSubI64_eq {a b : BitVec 64} (other : b.toInt ≠ int64Min) :
    slibcSatSubI64 a b = slibcSatAddI64 a (-b) := by
  have negative := toInt_neg_of_ne_min other
  by_cases zero : b.toInt = 0
  · have none : b = 0 := BitVec.eq_of_toInt_eq zero
    subst none
    rfl
  · have same : b.toInt < 0 ↔ 0 < (-b).toInt := by omega
    simp only [slibcSatSubI64, slibcSatAddI64, same]

/-- `INT64_MIN` is its own negative. -/
theorem slibcSatSubI64_min (a : BitVec 64) :
    (slibcSatSubI64 a (BitVec.intMin 64)).toInt = if 0 ≤ a.toInt then a.toInt + int64Min else int64Max := by
  have first := toInt_bounds a
  have same : -BitVec.intMin 64 = BitVec.intMin 64 := by decide
  have value : (BitVec.intMin 64).toInt = int64Min := by decide
  have below : int64Min < 0 ∧ 0 < int64Min + 2 ^ 64 := by decide
  have sum := toInt_add_wrap a (BitVec.intMin 64)
  rw [value] at sum
  by_cases nonneg : 0 ≤ a.toInt
  · have exact : (a + BitVec.intMin 64).toInt = a.toInt + int64Min := by omega
    rw [if_pos nonneg, slibcSatSubI64, slibcAddOverflowI64, same, value, exact, if_neg (by omega), if_neg (by omega)]
    exact exact
  · have wrapped : (a + BitVec.intMin 64).toInt = a.toInt + int64Min + 2 ^ 64 := by
      unfold FitsI64 at sum
      omega
    rw [if_neg nonneg, slibcSatSubI64, slibcAddOverflowI64, same, value, wrapped, if_neg (by omega), if_pos ⟨below.1, by omega⟩]
    simp only [if_pos below.1]
    exact toInt_ofInt_max

theorem slibcSatSubI64_iff (a b : BitVec 64) :
    (slibcSatSubI64 a b).toInt = clamp int64Min int64Max (a.toInt - b.toInt)
      ↔ (b.toInt = int64Min → a.toInt = -1) := by
  have first := toInt_bounds a
  have bounds := toInt_bounds b
  by_cases least : b.toInt = int64Min
  · have value : b = BitVec.intMin 64 := BitVec.eq_of_toInt_eq (least.trans (by decide))
    have number : (BitVec.intMin 64).toInt = -2 ^ 63 := by decide
    subst value
    rw [slibcSatSubI64_min, number]
    unfold clamp int64Min int64Max at *
    split <;> omega
  · rw [slibcSatSubI64_eq least, slibcSatAddI64_exact, toInt_neg_of_ne_min least, ← Int.sub_eq_add_neg]
    simp [least]

/-! ## Rounding divisions -/

/-- The quotient toward zero of `n + d - 1` is `n / d` rounded up if `n + d - 1` is not negative, or nothing remains. -/
theorem isCeil_tdiv {n d : Int} (positive : 0 < d) :
    IsCeil n d ((n + d - 1).tdiv d) ↔ 0 ≤ n + d - 1 ∨ d ∣ n + d - 1 := by
  have whole := Int.tmod_add_mul_tdiv (n + d - 1) d
  have comm : d * (n + d - 1).tdiv d = (n + d - 1).tdiv d * d := Int.mul_comm _ _
  unfold IsCeil
  rw [Int.sub_mul, Int.one_mul, Int.dvd_iff_tmod_eq_zero]
  by_cases sign : 0 ≤ n + d - 1
  · have low := Int.tmod_nonneg d sign
    have high := Int.tmod_lt_of_pos (n + d - 1) positive
    simp only [sign, true_or, iff_true]
    omega
  · have low : (n + d - 1).tmod d ≤ 0 := by
      have flipped := Int.tmod_nonneg d (show 0 ≤ -(n + d - 1) by omega)
      rw [Int.neg_tmod] at flipped
      omega
    simp only [sign, false_or]
    omega

theorem slibcDivRoundUp_iff {a b : BitVec 64} (positive : 0 < b.toInt) :
    IsCeil a.toInt b.toInt (slibcDivRoundUp a b).toInt
      ↔ a.toInt + b.toInt - 1 ≤ int64Max ∧ (0 ≤ a.toInt + b.toInt - 1 ∨ b.toInt ∣ a.toInt + b.toInt - 1) := by
  have first := toInt_bounds a
  have second := toInt_bounds b
  have divisor : b ≠ -1#64 := by
    rintro rfl
    revert positive
    decide
  have quotient : (slibcDivRoundUp a b).toInt = (a + b - 1).toInt.tdiv b.toInt :=
    BitVec.toInt_sdiv_of_ne_or_ne _ _ (.inr divisor)
  have sum : (a + b - 1).toInt = (a.toInt + b.toInt - 1).bmod (2 ^ 64) := by
    rw [BitVec.toInt_sub, BitVec.toInt_add, Int.bmod_sub_bmod]
    rfl
  rw [quotient, sum]
  by_cases fits : a.toInt + b.toInt - 1 ≤ int64Max
  · have exact : (a.toInt + b.toInt - 1).bmod (2 ^ 64) = a.toInt + b.toInt - 1 := by
      unfold int64Min int64Max at *
      apply Int.bmod_eq_of_le <;> omega
    rw [exact, isCeil_tdiv positive]
    simp [fits]
  · -- the sum wraps around to a negative number, and so does not reach a positive quotient
    have wrapped : (a.toInt + b.toInt - 1).bmod (2 ^ 64) ≤ 0 := by
      rw [Int.bmod_def]
      unfold int64Min int64Max at *
      split <;> omega
    have low : ((a.toInt + b.toInt - 1).bmod (2 ^ 64)).tdiv b.toInt ≤ 0 := by
      have flipped := Int.tdiv_nonneg (Int.neg_nonneg_of_nonpos wrapped) (Int.le_of_lt positive)
      rw [Int.neg_tdiv] at flipped
      omega
    have large : 0 < a.toInt := by
      unfold int64Max at *
      omega
    simp only [fits, false_and, iff_false]
    rintro ⟨reach, -⟩
    have := Int.mul_nonpos_of_nonpos_of_nonneg low (Int.le_of_lt positive)
    omega

theorem slibcUdivRoundUp_iff {a b : BitVec 64} (positive : 0 < b.toNat) :
    IsCeil a.toNat b.toNat (slibcUdivRoundUp a b).toNat ↔ a.toNat + b.toNat ≤ 2 ^ 64 := by
  have first := a.isLt
  have second := b.isLt
  have sum : (a + b - 1).toNat = (a.toNat + b.toNat - 1) % 2 ^ 64 := by
    have one : (1 : BitVec 64).toNat = 1 := rfl
    rw [BitVec.toNat_sub, BitVec.toNat_add, one]
    omega
  have whole := Nat.div_add_mod ((a.toNat + b.toNat - 1) % 2 ^ 64) b.toNat
  have rest := Nat.mod_lt ((a.toNat + b.toNat - 1) % 2 ^ 64) positive
  have comm := Nat.mul_comm b.toNat ((a.toNat + b.toNat - 1) % 2 ^ 64 / b.toNat)
  unfold IsCeil slibcUdivRoundUp
  rw [BitVec.toNat_udiv, sum, Int.sub_mul, Int.one_mul, ← Int.natCast_mul]
  omega

/-! ## All helpers -/

/-- All promises hold for two arguments exactly if the difference does not subtract `INT64_MIN` from anything but -1,
and the rounding divisions neither wrap around nor round a negative number with a remainder. -/
theorem arithmetic_iff (a b : BitVec 64) :
    ArithmeticOk a b ↔
      (b.toInt = int64Min → a.toInt = -1)
        ∧ (0 < b.toInt → a.toInt + b.toInt - 1 ≤ int64Max
            ∧ (0 ≤ a.toInt + b.toInt - 1 ∨ b.toInt ∣ a.toInt + b.toInt - 1))
        ∧ (0 < b.toNat → a.toNat + b.toNat ≤ 2 ^ 64) := by
  constructor
  · intro ok
    exact ⟨(slibcSatSubI64_iff a b).mp ok.satSubI,
      fun positive => (slibcDivRoundUp_iff positive).mp (ok.divRoundUp positive),
      fun positive => (slibcUdivRoundUp_iff positive).mp (ok.udivRoundUp positive)⟩
  · rintro ⟨difference, signed, unsigned⟩
    exact {
      addU := slibcAddOverflowU64_checked a b
      mulU := slibcMulOverflowU64_checked a b
      addI := slibcAddOverflowI64_checked a b
      mulI := slibcMulOverflowI64_checked a b
      lcm_zero := slibcLcm_zero a b
      lcm := slibcLcm_exact
      satAddU := slibcSatAddU64_exact a b
      satSubU := slibcSatSubU64_exact a b
      satAddI := slibcSatAddI64_exact a b
      satSubI := (slibcSatSubI64_iff a b).mpr difference
      divRoundUp := fun positive => (slibcDivRoundUp_iff positive).mpr (signed positive)
      udivRoundUp := fun positive => (slibcUdivRoundUp_iff positive).mpr (unsigned positive)
    }

/-- `0 - INT64_MIN` saturates at the wrong end, `-4 / 3` rounds up to 0, and `(2^64 - 1) / 2` to 0. -/
theorem arithmetic_fails :
    ¬ArithmeticOk 0 (BitVec.intMin 64) ∧ ¬ArithmeticOk (-4) 3 ∧ ¬ArithmeticOk (-1) 2 := by
  refine ⟨fun ok => absurd ok.satSubI (by decide), fun ok => absurd (ok.divRoundUp (by decide)) ?_,
    fun ok => absurd (ok.udivRoundUp (by decide)) ?_⟩
  · unfold IsCeil
    decide
  · unfold IsCeil
    decide

end Systrix.Libc
