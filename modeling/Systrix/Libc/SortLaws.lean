import Systrix.Lib.Rearrange
import Systrix.Libc.Sort

/-!
# Sorting an array of values

`qsort` on an array that is a function of its indices: it ends, permutes its array, and puts it in order
exactly when no part is dropped that is not in order.
-/

namespace Systrix.Libc

open Rearrange

variable {α : Type}

/-- An array of `n` values. -/
def items (n : Nat) (cmp : α → α → Int) : Elements (Nat → α) where
  cmp A i j := if i < n ∧ j < n then some (cmp (A i) (A j)) else none
  swap A i j := if i < n ∧ j < n then some (exchange A i j) else none

section Values

variable {n : Nat} {cmp : α → α → Int} {P : α → Prop} {A : Nat → α}

theorem items_cmp {i j : Nat} (left : i < n) (right : j < n) : (items n cmp).cmp A i j = some (cmp (A i) (A j)) :=
  if_pos ⟨left, right⟩

theorem items_swap {i j : Nat} (left : i < n) (right : j < n) : (items n cmp).swap A i j = some (exchange A i j) :=
  if_pos ⟨left, right⟩

theorem ordered_items {lo hi : Nat} (bound : hi < n) : Ordered (items n cmp) A lo hi ↔ InOrder cmp A lo hi := by
  constructor
  · intro ordered i j low between high
    obtain ⟨r, compared, below⟩ := ordered i j low between high
    rw [items_cmp (by omega) (by omega)] at compared
    cases compared
    exact below
  · intro order i j low between high
    exact ⟨_, items_cmp (by omega) (by omega), order i j low between high⟩

variable (order : PreorderOn cmp P)

include order

/-! ## Insertion sort -/

/-- The entries from `lo` to `hi` are in order but for the one at `j`, which may be too small for its place. -/
def NearlyInOrder (cmp : α → α → Int) (A : Nat → α) (lo hi j : Nat) : Prop :=
  ∀ a b, lo ≤ a → a < b → b ≤ hi → b ≠ j → cmp (A a) (A b) ≤ 0

omit order in
theorem nearlyInOrder_exchange {lo hi j : Nat} (low : lo ≤ j) (near : NearlyInOrder cmp A lo hi (j + 1))
    (high : j + 1 ≤ hi) (above : cmp (A (j + 1)) (A j) ≤ 0) : NearlyInOrder cmp (exchange A j (j + 1)) lo hi j := by
  intro a b lowA between highB other
  by_cases isNext : b = j + 1
  · subst isNext
    rw [exchange_right]
    by_cases isJ : a = j
    · subst isJ
      rw [exchange_left]
      exact above
    · rw [exchange_of_ne A isJ (by omega)]
      exact near a j lowA (by omega) (by omega) (by omega)
  · rw [exchange_of_ne A other isNext]
    by_cases isJ : a = j
    · subst isJ
      rw [exchange_left]
      exact near (a + 1) b (by omega) (by omega) highB isNext
    · by_cases isNextA : a = j + 1
      · subst isNextA
        rw [exchange_right]
        exact near j b low (by omega) highB isNext
      · rw [exchange_of_ne A isJ isNextA]
        exact near a b lowA between highB isNext

/-- An element that is not smaller than the one before it is in its place. -/
theorem NearlyInOrder.inOrder (all : ∀ k < n, P (A k)) {lo hi j : Nat} (bound : hi < n)
    (near : NearlyInOrder cmp A lo hi (lo + j)) (placed : ∀ i, j = i + 1 → cmp (A (lo + i)) (A (lo + j)) ≤ 0)
    (inside : lo + j ≤ hi) : InOrder cmp A lo hi := by
  intro a b low between high
  rcases Nat.eq_or_lt_of_le between with rfl | before
  · exact Int.le_of_eq (order.self (all a (by omega)))
  by_cases other : b = lo + j
  · subst other
    cases j with
    | zero => omega
    | succ i =>
        have last := placed i rfl
        rcases Nat.eq_or_lt_of_le (Nat.le_of_lt_succ before) with rfl | further
        · exact last
        · have first := near a (lo + i) low further (by omega) (by omega)
          exact order.trans _ _ _ (all _ (by omega)) (all _ (by omega)) (all _ (by omega)) first last
  · exact near a b low before high other

theorem isortDown_spec {lo hi j : Nat} (all : ∀ k < n, P (A k)) (bound : hi < n) (inside : lo + j ≤ hi)
    (near : NearlyInOrder cmp A lo hi (lo + j)) : ∃ A', isortDown (items n cmp) lo j A = some A' ∧
      Within lo hi A A' ∧ InOrder cmp A' lo hi := by
  induction j generalizing A with
  | zero => exact ⟨A, rfl, Within.refl lo hi A, near.inOrder order all bound (fun i equal => by omega) inside⟩
  | succ j ih =>
      rw [isortDown, items_cmp (by omega) (by omega)]
      simp only [Option.bind_eq_bind, Option.bind_some]
      by_cases above : 0 < cmp (A (lo + j)) (A (lo + (j + 1)))
      · have within : Within lo hi A (exchange A (lo + j) (lo + (j + 1))) :=
          Within.exchange ⟨by omega, by omega⟩ ⟨by omega, by omega⟩
        have smaller := order.le_of_pos (all _ (by omega)) (all _ (by omega)) above
        obtain ⟨A', sorted, within', inOrder⟩ := ih (within.keeps bound all) (by omega)
          (nearlyInOrder_exchange (by omega) near inside smaller)
        rw [if_pos above, items_swap (by omega) (by omega), Option.bind_some]
        exact ⟨A', sorted, within.trans within', inOrder⟩
      · rw [if_neg above]
        refine ⟨A, rfl, Within.refl lo hi A, near.inOrder order all bound (fun i equal => ?_) inside⟩
        cases equal
        exact Int.not_lt.mp above

theorem isortLoop_spec {lo i left : Nat} (all : ∀ k < n, P (A k)) (positive : 0 < i) (bound : lo + i + left ≤ n)
    (sorted : InOrder cmp A lo (lo + i - 1)) : ∃ A', isortLoop (items n cmp) lo i left A = some A' ∧
      Within lo (lo + i + left - 1) A A' ∧ InOrder cmp A' lo (lo + i + left - 1) := by
  induction left generalizing A i with
  | zero => exact ⟨A, rfl, Within.refl _ _ A, sorted⟩
  | succ left ih =>
      have near : NearlyInOrder cmp A lo (lo + i) (lo + i) := fun a b low between high other =>
        sorted a b low (Nat.le_of_lt between) (by omega)
      obtain ⟨A', placed, within, sorted'⟩ := isortDown_spec order all (by omega) (Nat.le_refl _) near
      obtain ⟨A'', whole, within', sorted''⟩ := ih (i := i + 1) (within.keeps (by omega) all) (Nat.succ_pos i)
        (by omega) sorted'
      have same : lo + (i + 1) + left - 1 = lo + i + (left + 1) - 1 := by omega
      rw [same] at within' sorted''
      rw [isortLoop, placed]
      simp only [Option.bind_eq_bind, Option.bind_some]
      exact ⟨A'', whole, (within.mono (Nat.le_refl _) (by omega)).trans within', sorted''⟩

/-- Insertion sort puts its part of the array in order. -/
theorem isort_spec {lo hi : Nat} (all : ∀ k < n, P (A k)) (low : lo ≤ hi) (bound : hi < n) :
    ∃ A', isort (items n cmp) lo (hi - lo + 1) A = some A' ∧ Within lo hi A A' ∧ InOrder cmp A' lo hi := by
  have single : InOrder cmp A lo (lo + 1 - 1) := by
    intro a b lowA between high
    have same : a = b := by omega
    rw [same]
    exact Int.le_of_eq (order.self (all b (by omega)))
  have fits : lo + 1 + (hi - lo) ≤ n := by omega
  have spec := isortLoop_spec order all Nat.one_pos fits single
  have same : lo + 1 + (hi - lo) - 1 = hi := by omega
  rw [same] at spec
  exact spec

/-! ## Partitioning -/

theorem orderPair_spec {a b : Nat} (all : ∀ k < n, P (A k)) (left : a < n) (right : b < n) :
    (cmp (A a) (A b) ≤ 0 ∧ orderPair (items n cmp) a b A = some A) ∨
      (cmp (A b) (A a) ≤ 0 ∧ orderPair (items n cmp) a b A = some (exchange A a b)) := by
  unfold orderPair
  rw [items_cmp left right]
  simp only [Option.bind_eq_bind, Option.bind_some]
  by_cases above : 0 < cmp (A a) (A b)
  · rw [if_pos above]
    exact .inr ⟨order.le_of_pos (all b right) (all a left) above, items_swap left right⟩
  · rw [if_neg above]
    exact .inl ⟨Int.not_lt.mp above, rfl⟩

/-- The three comparisons before a partition put the ends on their sides of the middle. -/
theorem median_spec {lo mid hi : Nat} (all : ∀ k < n, P (A k)) (low : lo < mid) (high : mid < hi) (bound : hi < n) :
    ∃ A₁ A₂ A₃, orderPair (items n cmp) lo mid A = some A₁ ∧ orderPair (items n cmp) lo hi A₁ = some A₂ ∧
      orderPair (items n cmp) mid hi A₂ = some A₃ ∧ Within lo hi A A₃ ∧
      cmp (A₃ lo) (A₃ mid) ≤ 0 ∧ cmp (A₃ mid) (A₃ hi) ≤ 0 := by
  have atLo : lo ≤ lo ∧ lo ≤ hi := by omega
  have atMid : lo ≤ mid ∧ mid ≤ hi := by omega
  have atHi : lo ≤ hi ∧ hi ≤ hi := by omega
  -- the first pair
  have first : ∃ A₁, orderPair (items n cmp) lo mid A = some A₁ ∧ Within lo hi A A₁ ∧ cmp (A₁ lo) (A₁ mid) ≤ 0 := by
    rcases orderPair_spec order all (show lo < n by omega) (show mid < n by omega) with ⟨le, pair⟩ | ⟨le, pair⟩
    · exact ⟨A, pair, Within.refl lo hi A, le⟩
    · refine ⟨_, pair, Within.exchange atLo atMid, ?_⟩
      rw [exchange_left, exchange_right]
      exact le
  obtain ⟨A₁, pair₁, within₁, le₁⟩ := first
  have all₁ := within₁.keeps bound all
  -- the second pair leaves the smaller one at `lo`
  have second : ∃ A₂, orderPair (items n cmp) lo hi A₁ = some A₂ ∧ Within lo hi A₁ A₂ ∧
      cmp (A₂ lo) (A₂ mid) ≤ 0 ∧ cmp (A₂ lo) (A₂ hi) ≤ 0 := by
    rcases orderPair_spec order all₁ (show lo < n by omega) bound with ⟨le, pair⟩ | ⟨le, pair⟩
    · exact ⟨A₁, pair, Within.refl lo hi A₁, le₁, le⟩
    · refine ⟨_, pair, Within.exchange atLo atHi, ?_, ?_⟩
      · rw [exchange_left, exchange_of_ne A₁ (by omega) (by omega)]
        exact order.trans _ _ _ (all₁ hi bound) (all₁ lo (by omega)) (all₁ mid (by omega)) le le₁
      · rw [exchange_left, exchange_right]
        exact le
  obtain ⟨A₂, pair₂, within₂, leMid, leHi⟩ := second
  have all₂ := within₂.keeps bound all₁
  rcases orderPair_spec order all₂ (show mid < n by omega) bound with ⟨le, pair⟩ | ⟨le, pair⟩
  · exact ⟨A₁, A₂, A₂, pair₁, pair₂, pair, within₁.trans within₂, leMid, le⟩
  · refine ⟨A₁, A₂, _, pair₁, pair₂, pair, (within₁.trans within₂).trans (Within.exchange atMid atHi), ?_, ?_⟩
    · rw [exchange_of_ne A₂ (by omega) (by omega), exchange_left]
      exact leHi
    · rw [exchange_left, exchange_right]
      exact le

/-- The scan from below ends, at the pivot at the latest. -/
theorem scanUp_spec {pivot i fuel : Nat} (all : ∀ k < n, P (A k)) (bound : pivot < n) (before : i < pivot)
    (enough : pivot ≤ i + fuel) : ∃ i', scanUp (items n cmp) A pivot i fuel = some i' ∧ i < i' ∧ i' ≤ pivot ∧
      (∀ k, i < k → k < i' → cmp (A k) (A pivot) < 0) ∧ ¬cmp (A i') (A pivot) < 0 := by
  induction fuel generalizing i with
  | zero => omega
  | succ fuel ih =>
      rw [scanUp, items_cmp (by omega) bound]
      simp only [Option.bind_eq_bind, Option.bind_some]
      by_cases below : cmp (A (i + 1)) (A pivot) < 0
      · have notPivot : i + 1 ≠ pivot := by
          intro isPivot
          rw [isPivot, order.self (all pivot bound)] at below
          exact absurd below (Int.lt_irrefl 0)
        obtain ⟨i', scanned, later, stops, smaller, notSmaller⟩ := ih (i := i + 1) (by omega) (by omega)
        rw [if_pos below]
        refine ⟨i', scanned, by omega, stops, fun k after further => ?_, notSmaller⟩
        rcases Nat.eq_or_lt_of_le (Nat.succ_le_of_lt after) with rfl | rest
        · exact below
        · exact smaller k rest further
      · rw [if_neg below]
        exact ⟨i + 1, rfl, Nat.lt_succ_self i, before, fun k after further => absurd further (by omega), below⟩

omit order in
/-- The scan from above ends, at `lo` at the latest. -/
theorem scanDown_spec {pivot lo j : Nat} (bound : pivot < n) (low : lo ≤ j) (inside : j ≤ pivot) :
    ∃ j', scanDown (items n cmp) A pivot lo j = some j' ∧ lo ≤ j' ∧ j' ≤ j ∧ (lo < j → j' < j) ∧
      (∀ k, j' < k → k < j → 0 < cmp (A k) (A pivot)) ∧ (lo < j' → ¬0 < cmp (A j') (A pivot)) := by
  induction j with
  | zero => exact ⟨0, rfl, low, Nat.le_refl 0, (by omega), (by omega), (by omega)⟩
  | succ j ih =>
      rw [scanDown]
      by_cases more : lo < j + 1
      · rw [if_pos more, items_cmp (by omega) bound]
        simp only [Option.bind_eq_bind, Option.bind_some]
        by_cases above : 0 < cmp (A j) (A pivot)
        · obtain ⟨j', scanned, low', inside', -, larger, notLarger⟩ := ih (by omega) (by omega)
          rw [if_pos above]
          refine ⟨j', scanned, low', by omega, fun _ => by omega, fun k after further => ?_, notLarger⟩
          rcases Nat.eq_or_lt_of_le (Nat.le_of_lt_succ further) with rfl | rest
          · exact above
          · exact larger k after rest
        · rw [if_neg above]
          exact ⟨j, rfl, by omega, Nat.le_succ j, fun _ => Nat.lt_succ_self j, (by omega), fun _ => above⟩
      · rw [if_neg more]
        exact ⟨j + 1, rfl, low, Nat.le_refl _, fun less => absurd less more, (by omega), fun less => absurd less more⟩

/-- The loop ends with what is not above the pivot below `i`, and what is not below it from `i` on. -/
theorem partLoop_spec {lo pivot hi i j fuel : Nat} (all : ∀ k < n, P (A k)) (bound : hi < n) (end' : pivot < hi)
    (low : lo ≤ i) (between : i < j) (high : j ≤ pivot) (enough : pivot ≤ i + fuel)
    (below : ∀ k, lo ≤ k → k ≤ i → cmp (A k) (A pivot) ≤ 0)
    (above : ∀ k, j ≤ k → k ≤ hi → cmp (A pivot) (A k) ≤ 0) :
    ∃ A' i', partLoop (items n cmp) pivot lo fuel i j A = some (A', i') ∧ Within (i + 1) (j - 1) A A' ∧
      i < i' ∧ i' ≤ pivot ∧ (∀ k, lo ≤ k → k < i' → cmp (A' k) (A' pivot) ≤ 0) ∧
      ∀ k, i' ≤ k → k ≤ hi → cmp (A' pivot) (A' k) ≤ 0 := by
  induction fuel generalizing A i j with
  | zero => omega
  | succ fuel ih =>
      have inBounds : pivot < n := by omega
      obtain ⟨i', up, after, stops, smaller, notSmaller⟩ :=
        scanUp_spec order all inBounds (show i < pivot by omega) enough
      obtain ⟨j', down, low', -, less, larger, notLarger⟩ :=
        @scanDown_spec α n cmp A pivot lo j inBounds (by omega) high
      have strict : j' < j := less (by omega)
      have isP : ∀ k, k ≤ hi → P (A k) := fun k inside => all k (by omega)
      rw [partLoop, up]
      simp only [Option.bind_eq_bind, Option.bind_some]
      rw [down]
      simp only [Option.bind_some]
      by_cases crossed : j' ≤ i'
      · rw [if_pos crossed]
        refine ⟨A, i', rfl, Within.refl _ _ A, after, stops, fun k lowK highK => ?_, fun k lowK highK => ?_⟩
        · by_cases old : k ≤ i
          · exact below k lowK old
          · exact Int.le_of_lt (smaller k (by omega) highK)
        · by_cases here : k = i'
          · rw [here]
            exact order.le_of_nonneg (isP pivot (by omega)) (isP i' (by omega)) notSmaller
          · by_cases old : j ≤ k
            · exact above k old highK
            · exact order.le_of_pos (isP pivot (by omega)) (isP k highK) (larger k (by omega) (by omega))
      · have within : Within (i + 1) (j - 1) A (exchange A i' j') :=
          Within.exchange ⟨by omega, by omega⟩ ⟨by omega, by omega⟩
        have samePivot : exchange A i' j' pivot = A pivot := exchange_of_ne A (by omega) (by omega)
        obtain ⟨A', i'', looped, within', after', stops', below', above'⟩ := ih (A := exchange A i' j') (i := i')
          (j := j') (within.keeps (by omega) all) (by omega) (by omega) (by omega) (by omega)
          (fun k lowK highK => by
            rw [samePivot]
            by_cases here : k = i'
            · rw [here, exchange_left]
              exact Int.not_lt.mp (notLarger (by omega))
            · rw [exchange_of_ne A here (by omega)]
              by_cases old : k ≤ i
              · exact below k lowK old
              · exact Int.le_of_lt (smaller k (by omega) (by omega)))
          (fun k lowK highK => by
            rw [samePivot]
            by_cases here : k = j'
            · rw [here, exchange_right]
              exact order.le_of_nonneg (isP pivot (by omega)) (isP i' (by omega)) notSmaller
            · rw [exchange_of_ne A (by omega) here]
              by_cases old : j ≤ k
              · exact above k old highK
              · exact order.le_of_pos (isP pivot (by omega)) (isP k highK) (larger k (by omega) (by omega)))
        rw [if_neg crossed, items_swap (by omega) (by omega), Option.bind_some]
        exact ⟨A', i'', looped, within.trans (within'.mono (by omega) (by omega)), by omega, stops', below', above'⟩

/-- A range of at least nine elements is split at an element that belongs there. -/
theorem partition_spec {lo hi fuel : Nat} (all : ∀ k < n, P (A k)) (wide : 8 ≤ hi - lo) (bound : hi < n)
    (enough : n ≤ fuel) : ∃ A' i, partition (items n cmp) fuel lo hi A = some (A', i) ∧ Within lo hi A A' ∧
      lo < i ∧ i < hi ∧ (∀ k, lo ≤ k → k < i → cmp (A' k) (A' i) ≤ 0) ∧
      ∀ k, i < k → k ≤ hi → cmp (A' i) (A' k) ≤ 0 := by
  have low : lo < lo + (hi - lo) / 2 := by omega
  have high : lo + (hi - lo) / 2 < hi - 1 := by omega
  obtain ⟨A₁, A₂, A₃, pair₁, pair₂, pair₃, within₃, leLo, leHi⟩ :=
    median_spec order all low (show lo + (hi - lo) / 2 < hi by omega) bound
  unfold partition
  generalize lo + (hi - lo) / 2 = mid at low high pair₁ pair₂ pair₃ leLo leHi
  have moved : Within lo hi A₃ (exchange A₃ mid (hi - 1)) := Within.exchange ⟨by omega, by omega⟩ ⟨by omega, by omega⟩
  have within₄ := within₃.trans moved
  have all₄ := within₄.keeps bound all
  have isPivot : exchange A₃ mid (hi - 1) (hi - 1) = A₃ mid := exchange_right A₃ mid (hi - 1)
  have atLo : exchange A₃ mid (hi - 1) lo = A₃ lo := exchange_of_ne A₃ (by omega) (by omega)
  have atHi : exchange A₃ mid (hi - 1) hi = A₃ hi := exchange_of_ne A₃ (by omega) (by omega)
  obtain ⟨A₅, i, looped, within₅, after, stops, below, above⟩ := partLoop_spec order all₄ bound
    (show hi - 1 < hi by omega) (Nat.le_refl lo) (show lo < hi - 1 by omega) (Nat.le_refl _)
    (show hi - 1 ≤ lo + fuel by omega)
    (fun k lowK highK => by
      rw [Nat.le_antisymm highK lowK, atLo, isPivot]
      exact leLo)
    (fun k lowK highK => by
      rw [isPivot]
      rcases Nat.eq_or_lt_of_le lowK with rfl | last
      · rw [isPivot]
        exact Int.le_of_eq (order.self (within₃.keeps bound all mid (by omega)))
      · rw [show k = hi by omega, atHi]
        exact leHi)
  have whole := within₄.trans (within₅.mono (show lo ≤ lo + 1 by omega) (show hi - 1 - 1 ≤ hi by omega))
  have placed : Within lo hi A₅ (exchange A₅ i (hi - 1)) := Within.exchange ⟨by omega, by omega⟩ ⟨by omega, by omega⟩
  refine ⟨exchange A₅ i (hi - 1), i, ?_, whole.trans placed, after, by omega, ?_, ?_⟩
  · simp only [Option.bind_eq_bind]
    rw [pair₁, Option.bind_some, pair₂, Option.bind_some, pair₃, Option.bind_some,
      items_swap (by omega) (by omega), Option.bind_some, looped, Option.bind_some]
    simp only
    rw [items_swap (by omega) (by omega), Option.bind_some]
  · intro k lowK highK
    rw [exchange_left, exchange_of_ne A₅ (by omega) (by omega)]
    exact below k lowK highK
  · intro k lowK highK
    rw [exchange_left]
    by_cases last : k = hi - 1
    · rw [last, exchange_right]
      exact above i (Nat.le_refl i) (by omega)
    · rw [exchange_of_ne A₅ (by omega) last]
      exact above k (Nat.le_of_lt lowK) highK

/-! ## The stack -/

omit order

/-- Steps the loop needs at most for the ranges on the stack. -/
def weight (stack : List (Nat × Nat)) : Nat := (stack.map fun r => 2 * (r.2 - r.1) + 1).sum

@[simp] theorem weight_cons (r : Nat × Nat) (stack : List (Nat × Nat)) :
    weight (r :: stack) = 2 * (r.2 - r.1) + 1 + weight stack := by
  simp [weight]

/-- The ranges on the stack lie in the array. -/
def Inside (n : Nat) (stack : List (Nat × Nat)) : Prop := ∀ r ∈ stack, r.1 ≤ r.2 ∧ r.2 < n

/-- The index lies in a range on the stack. -/
def Covered (stack : List (Nat × Nat)) (k : Nat) : Prop := ∃ r ∈ stack, r.1 ≤ k ∧ k ≤ r.2

/-- The ranges on the stack are apart, and two entries that lie in no common one are in order. -/
structure Settled (n : Nat) (cmp : α → α → Int) (A : Nat → α) (stack : List (Nat × Nat)) : Prop where
  apart : stack.Pairwise fun r r' => r.2 < r'.1 ∨ r'.2 < r.1
  order : ∀ i j, i < j → j < n → (∃ r ∈ stack, r.1 ≤ i ∧ j ≤ r.2) ∨ cmp (A i) (A j) ≤ 0

/-- A range is done, or is replaced by parts of it. -/
theorem Settled.replace {lo hi : Nat} {stack parts : List (Nat × Nat)} {A' : Nat → α}
    (settled : Settled n cmp A ((lo, hi) :: stack)) (within : Within lo hi A A') (bound : hi < n)
    (partsIn : ∀ r ∈ parts, lo ≤ r.1 ∧ r.2 ≤ hi) (partsApart : parts.Pairwise fun r r' => r.2 < r'.1 ∨ r'.2 < r.1)
    (done : ∀ i j, lo ≤ i → i < j → j ≤ hi → (∃ r ∈ parts, r.1 ≤ i ∧ j ≤ r.2) ∨ cmp (A' i) (A' j) ≤ 0) :
    Settled n cmp A' (parts ++ stack) := by
  obtain ⟨apart, ordered⟩ := settled
  obtain ⟨fromRest, rest⟩ := List.pairwise_cons.mp apart
  refine ⟨List.pairwise_append.mpr ⟨partsApart, rest, fun r isPart r' isRest => ?_⟩, fun i j before below => ?_⟩
  · have inPart := partsIn r isPart
    have away := fromRest r' isRest
    omega
  -- a pair that is not in the range was settled before, also for what is there now
  have old : ∀ i' j', i' < j' → j' < n → ¬(lo ≤ i' ∧ j' ≤ hi) →
      (∃ r ∈ stack, r.1 ≤ i' ∧ j' ≤ r.2) ∨ cmp (A i') (A j') ≤ 0 := by
    intro i' j' before' below' notBoth
    rcases ordered i' j' before' below' with ⟨r, member, covers⟩ | le
    · rcases List.mem_cons.mp member with rfl | isRest
      · exact absurd covers notBoth
      · exact .inl ⟨r, isRest, covers⟩
    · exact .inr le
  have notCovered : ∀ r ∈ stack, ∀ k, r.1 ≤ k → k ≤ r.2 → ¬(lo ≤ k ∧ k ≤ hi) := by
    intro r isRest k low high inside
    have away := fromRest r isRest
    dsimp only at away
    omega
  by_cases insideI : lo ≤ i ∧ i ≤ hi
  · by_cases insideJ : lo ≤ j ∧ j ≤ hi
    · rcases done i j insideI.1 before insideJ.2 with ⟨r, isPart, covers⟩ | le
      · exact .inl ⟨r, List.mem_append_left _ isPart, covers⟩
      · exact .inr le
    · obtain ⟨i', insideI', same⟩ := within.origin insideI
      rw [same, within.outside insideJ]
      rcases old i' j (by omega) below (by omega) with ⟨r, isRest, covers⟩ | le
      · exact absurd insideI' (notCovered r isRest i' covers.1 (by omega))
      · exact .inr le
  · by_cases insideJ : lo ≤ j ∧ j ≤ hi
    · obtain ⟨j', insideJ', same⟩ := within.origin insideJ
      rw [same, within.outside insideI]
      rcases old i j' (by omega) (by omega) (by omega) with ⟨r, isRest, covers⟩ | le
      · exact absurd insideJ' (notCovered r isRest j' (by omega) covers.2)
      · exact .inr le
    · rw [within.outside insideI, within.outside insideJ]
      rcases old i j before below (by omega) with ⟨r, isRest, covers⟩ | le
      · exact .inl ⟨r, List.mem_append_right _ isRest, covers⟩
      · exact .inr le

/-- What is left of a range once it was split. -/
theorem pair_split (order : PreorderOn cmp P) (all : ∀ k < n, P (A k)) {lo hi i : Nat} (bound : hi < n)
    (below : ∀ k, lo ≤ k → k < i → cmp (A k) (A i) ≤ 0) (above : ∀ k, i < k → k ≤ hi → cmp (A i) (A k) ≤ 0)
    (a b : Nat) (low : lo ≤ a) (before : a < b) (high : b ≤ hi) :
    b < i ∨ i < a ∨ cmp (A a) (A b) ≤ 0 := by
  rcases Nat.lt_trichotomy b i with isBelow | rfl | isAbove
  · exact .inl isBelow
  · exact .inr (.inr (below a low before))
  · rcases Nat.lt_trichotomy a i with isBelowA | rfl | isAboveA
    · have isP : ∀ k, k ≤ hi → P (A k) := fun k inside => all k (by omega)
      have left := below a low isBelowA
      have right := above b isAbove high
      exact .inr (.inr (order.trans _ _ _ (isP a (by omega)) (isP i (by omega)) (isP b high) left right))
    · exact .inr (.inr (above b before high))
    · exact .inr (.inl isAboveA)

/-- The loop ends; it changes what the stack covers by permuting it, and leaves the array in order exactly when
all ranges it drops are. -/
structure LoopSpec (n : Nat) (cmp : α → α → Int) (fuel left : Nat) (stack : List (Nat × Nat)) (A A' : Nat → α) :
    Prop where
  ends : qsortLoop (items n cmp) fuel left stack A = some A'
  permutes : Within 0 (n - 1) A A'
  keeps : ∀ k, ¬Covered stack k → A' k = A k
  sorts : Settled n cmp A stack →
    (InOrder cmp A' 0 (n - 1) ↔ DropsInOrder (items n cmp) fuel left stack A)

theorem LoopSpec.step {fuel left lo hi : Nat} {stack stack' : List (Nat × Nat)} {A₁ A' : Nat → α}
    (spec : LoopSpec n cmp fuel left stack' A₁ A') (within : Within lo hi A A₁) (bound : hi < n)
    (fewer : ∀ k, Covered stack' k → Covered ((lo, hi) :: stack) k)
    (ends : qsortLoop (items n cmp) fuel (left + 1) ((lo, hi) :: stack) A = qsortLoop (items n cmp) fuel left stack' A₁)
    (sorts : Settled n cmp A ((lo, hi) :: stack) →
      (InOrder cmp A' 0 (n - 1) ↔ DropsInOrder (items n cmp) fuel (left + 1) ((lo, hi) :: stack) A)) :
    LoopSpec n cmp fuel (left + 1) ((lo, hi) :: stack) A A' where
  ends := ends.trans spec.ends
  permutes := (within.mono (Nat.zero_le lo) (by omega)).trans spec.permutes
  keeps k uncovered := by
    have outside : ¬(lo ≤ k ∧ k ≤ hi) := fun inside => uncovered ⟨(lo, hi), List.mem_cons_self, inside⟩
    rw [spec.keeps k fun covered => uncovered (fewer k covered), within.outside outside]
  sorts := sorts

theorem covered_tail {lo hi k : Nat} {stack : List (Nat × Nat)} (covered : Covered stack k) :
    Covered ((lo, hi) :: stack) k := by
  obtain ⟨r, member, inside⟩ := covered
  exact ⟨r, List.mem_cons_of_mem _ member, inside⟩

/-- The range on top is in order, and leaves the stack. -/
theorem LoopSpec.done {fuel left lo hi : Nat} {stack : List (Nat × Nat)} {A₁ A' : Nat → α}
    (spec : LoopSpec n cmp fuel left stack A₁ A') (within : Within lo hi A A₁) (bound : hi < n)
    (sorted : InOrder cmp A₁ lo hi)
    (ends : qsortLoop (items n cmp) fuel (left + 1) ((lo, hi) :: stack) A = qsortLoop (items n cmp) fuel left stack A₁)
    (drops : DropsInOrder (items n cmp) fuel (left + 1) ((lo, hi) :: stack) A ↔
      DropsInOrder (items n cmp) fuel left stack A₁) :
    LoopSpec n cmp fuel (left + 1) ((lo, hi) :: stack) A A' := by
  refine spec.step within bound (fun k => covered_tail) ends fun settled => ?_
  rw [drops]
  refine spec.sorts (show Settled n cmp A₁ ([] ++ stack) from settled.replace within bound ?_ List.Pairwise.nil ?_)
  · exact fun r member => absurd member List.not_mem_nil
  · exact fun i j low before high => .inr (sorted i j low (Nat.le_of_lt before) high)

/-- The range on top is split, and its parts go on the stack. -/
theorem LoopSpec.split {fuel left lo hi i : Nat} {stack : List (Nat × Nat)} {A₁ A' : Nat → α}
    (spec : LoopSpec n cmp fuel left ((i + 1, hi) :: (lo, i - 1) :: stack) A₁ A') (within : Within lo hi A A₁)
    (bound : hi < n) (low : lo < i) (high : i < hi)
    (pairs : ∀ a b, lo ≤ a → a < b → b ≤ hi → b < i ∨ i < a ∨ cmp (A₁ a) (A₁ b) ≤ 0)
    (ends : qsortLoop (items n cmp) fuel (left + 1) ((lo, hi) :: stack) A =
      qsortLoop (items n cmp) fuel left ((i + 1, hi) :: (lo, i - 1) :: stack) A₁)
    (drops : DropsInOrder (items n cmp) fuel (left + 1) ((lo, hi) :: stack) A ↔
      DropsInOrder (items n cmp) fuel left ((i + 1, hi) :: (lo, i - 1) :: stack) A₁) :
    LoopSpec n cmp fuel (left + 1) ((lo, hi) :: stack) A A' := by
  refine spec.step within bound (fun k covered => ?_) ends fun settled => ?_
  · obtain ⟨r, member, inside⟩ := covered
    rcases List.mem_cons.mp member with rfl | later
    · exact ⟨(lo, hi), List.mem_cons_self, by omega, inside.2⟩
    · rcases List.mem_cons.mp later with rfl | old
      · exact ⟨(lo, hi), List.mem_cons_self, inside.1, by dsimp only at inside ⊢; omega⟩
      · exact ⟨r, List.mem_cons_of_mem _ old, inside⟩
  · rw [drops]
    refine spec.sorts (show Settled n cmp A₁ ([(i + 1, hi), (lo, i - 1)] ++ stack) from
      settled.replace within bound ?_ ?_ ?_)
    · intro r member
      rcases List.mem_cons.mp member with rfl | later
      · exact ⟨by dsimp only; omega, Nat.le_refl hi⟩
      · rw [List.mem_singleton.mp later]
        exact ⟨Nat.le_refl lo, by dsimp only; omega⟩
    · refine List.pairwise_cons.mpr ⟨fun r member => ?_, List.pairwise_singleton _ _⟩
      rw [List.mem_singleton.mp member]
      exact .inr (by dsimp only; omega)
    · intro a b lowA before highB
      rcases pairs a b lowA before highB with isBelow | isAbove | le
      · exact .inl ⟨(lo, i - 1), List.mem_cons_of_mem _ (List.mem_singleton.mpr rfl), lowA, by dsimp only; omega⟩
      · exact .inl ⟨(i + 1, hi), List.mem_cons_self, isAbove, highB⟩
      · exact .inr le

/-- The range on top is split, and there is no room for its parts. -/
theorem LoopSpec.dropped {fuel left lo hi i : Nat} {stack : List (Nat × Nat)} {A₁ A' : Nat → α}
    (spec : LoopSpec n cmp fuel left stack A₁ A') (within : Within lo hi A A₁) (bound : hi < n) (low : lo < i)
    (high : i < hi) (pairs : ∀ a b, lo ≤ a → a < b → b ≤ hi → b < i ∨ i < a ∨ cmp (A₁ a) (A₁ b) ≤ 0)
    (ends : qsortLoop (items n cmp) fuel (left + 1) ((lo, hi) :: stack) A = qsortLoop (items n cmp) fuel left stack A₁)
    (drops : DropsInOrder (items n cmp) fuel (left + 1) ((lo, hi) :: stack) A ↔
      (InOrder cmp A₁ lo (i - 1) ∧ InOrder cmp A₁ (i + 1) hi) ∧ DropsInOrder (items n cmp) fuel left stack A₁) :
    LoopSpec n cmp fuel (left + 1) ((lo, hi) :: stack) A A' := by
  refine spec.step within bound (fun k => covered_tail) ends fun settled => ?_
  have rest : InOrder cmp A₁ lo (i - 1) ∧ InOrder cmp A₁ (i + 1) hi → Settled n cmp A₁ stack := by
    rintro ⟨left, right⟩
    refine (show Settled n cmp A₁ ([] ++ stack) from
      settled.replace within bound ?_ List.Pairwise.nil fun a b lowA before highB => .inr ?_)
    · exact fun r member => absurd member List.not_mem_nil
    · rcases pairs a b lowA before highB with isBelow | isAbove | le
      · exact left a b lowA (Nat.le_of_lt before) (by omega)
      · exact right a b isAbove (Nat.le_of_lt before) highB
      · exact le
  -- nothing that is left on the stack reaches the range
  have final : ∀ k, lo ≤ k → k ≤ hi → A₁ k = A' k := by
    intro k lowK highK
    refine (spec.keeps k ?_).symm
    rintro ⟨r, member, inside⟩
    have away := (List.pairwise_cons.mp settled.apart).1 r member
    dsimp only at away
    omega
  rw [drops]
  constructor
  · intro sorted
    have parts : InOrder cmp A₁ lo (i - 1) ∧ InOrder cmp A₁ (i + 1) hi := by
      constructor
      · refine InOrder.congr (fun k lowK highK => final k lowK (by omega)) fun a b lowA between highB => ?_
        exact sorted a b (Nat.zero_le a) between (by omega)
      · refine InOrder.congr (fun k lowK highK => final k (by omega) highK) fun a b lowA between highB => ?_
        exact sorted a b (Nat.zero_le a) between (by omega)
    exact ⟨parts, (spec.sorts (rest parts)).mp sorted⟩
  · rintro ⟨parts, later⟩
    exact (spec.sorts (rest parts)).mpr later

theorem LoopSpec.empty (order : PreorderOn cmp P) (positive : 0 < n) (all : ∀ k < n, P (A k)) (fuel left : Nat) :
    LoopSpec n cmp fuel left [] A A where
  ends := by cases left <;> rfl
  permutes := Within.refl 0 (n - 1) A
  keeps _ _ := rfl
  sorts settled := by
    refine iff_of_true (fun i j _ between high => ?_) (by cases left <;> trivial)
    rcases Nat.eq_or_lt_of_le between with rfl | before
    · exact Int.le_of_eq (order.self (all i (by omega)))
    · rcases settled.order i j before (by omega) with ⟨r, member, -⟩ | le
      · exact absurd member List.not_mem_nil
      · exact le

/-- The loop of `qsort`, from any stack. -/
theorem qsortLoop_spec (order : PreorderOn cmp P) (positive : 0 < n) {fuel left : Nat} {stack : List (Nat × Nat)}
    (all : ∀ k < n, P (A k)) (inside : Inside n stack) (enough : n ≤ fuel) (fits : weight stack ≤ left) :
    ∃ A', LoopSpec n cmp fuel left stack A A' := by
  induction left generalizing stack A with
  | zero =>
      cases stack with
      | nil => exact ⟨A, LoopSpec.empty order positive all fuel 0⟩
      | cons r stack =>
          rw [weight_cons] at fits
          omega
  | succ left ih =>
      cases stack with
      | nil => exact ⟨A, LoopSpec.empty order positive all fuel (left + 1)⟩
      | cons r stack =>
          obtain ⟨lo, hi⟩ := r
          obtain ⟨ordered, bound⟩ := inside (lo, hi) List.mem_cons_self
          have rest : Inside n stack := fun r member => inside r (List.mem_cons_of_mem _ member)
          dsimp only at ordered bound
          rw [weight_cons] at fits
          dsimp only at fits
          by_cases single : hi ≤ lo
          · obtain ⟨A', spec⟩ := ih all rest (by omega)
            refine ⟨A', spec.done (Within.refl lo hi A) bound (fun i j low between high => ?_) ?_ ?_⟩
            · have same : i = j := by omega
              rw [same]
              exact Int.le_of_eq (order.self (all j (by omega)))
            · rw [qsortLoop, if_pos single]
            · rw [DropsInOrder, if_pos single]
          by_cases small : hi - lo < 8
          · obtain ⟨A₁, sorted, within, inOrder⟩ := isort_spec order all ordered bound
            obtain ⟨A', spec⟩ := ih (within.keeps bound all) rest (by omega)
            refine ⟨A', spec.done within bound inOrder ?_ ?_⟩
            · rw [qsortLoop, if_neg single, if_pos small, sorted]
              rfl
            · rw [DropsInOrder, if_neg single, if_pos small]
              refine ⟨fun drops => drops A₁ sorted, fun drops s' result => ?_⟩
              rw [sorted] at result
              cases result
              exact drops
          obtain ⟨A₁, i, split, within, low, high, below, above⟩ :=
            partition_spec order all (Nat.not_lt.mp small) bound enough
          have all₁ := within.keeps bound all
          have pairs := pair_split order all₁ bound below above
          by_cases room : stack.length + 2 < qsortStack
          · have parts : Inside n ((i + 1, hi) :: (lo, i - 1) :: stack) := by
              intro r member
              rcases List.mem_cons.mp member with rfl | later
              · exact ⟨high, bound⟩
              · rcases List.mem_cons.mp later with rfl | old
                · exact ⟨by dsimp only; omega, by dsimp only; omega⟩
                · exact rest r old
            obtain ⟨A', spec⟩ := ih all₁ parts (by
              rw [weight_cons, weight_cons]
              dsimp only
              omega)
            refine ⟨A', spec.split within bound low high pairs ?_ ?_⟩
            · rw [qsortLoop, if_neg single, if_neg small, split]
              exact if_pos room
            · rw [DropsInOrder, if_neg single, if_neg small]
              constructor
              · intro drops
                have later := drops A₁ i split
                rwa [if_pos room] at later
              · intro drops s' i' result
                rw [split] at result
                cases result
                rwa [if_pos room]
          · obtain ⟨A', spec⟩ := ih all₁ rest (by omega)
            refine ⟨A', spec.dropped within bound low high pairs ?_ ?_⟩
            · rw [qsortLoop, if_neg single, if_neg small, split]
              exact if_neg room
            · rw [DropsInOrder, if_neg single, if_neg small]
              constructor
              · intro drops
                have later := drops A₁ i split
                rwa [if_neg room, ordered_items (by omega), ordered_items bound] at later
              · intro drops s' i' result
                rw [split] at result
                cases result
                rwa [if_neg room, ordered_items (by omega), ordered_items bound]

/-- What the ranges on the stack take up, each with an element between it and the next. -/
def spread (stack : List (Nat × Nat)) : Nat := (stack.map fun r => r.2 - r.1 + 2).sum

@[simp] theorem spread_cons (r : Nat × Nat) (stack : List (Nat × Nat)) :
    spread (r :: stack) = r.2 - r.1 + 2 + spread stack := by
  simp [spread]

theorem length_le_spread (stack : List (Nat × Nat)) : 2 * stack.length ≤ spread stack := by
  induction stack with
  | nil => exact Nat.zero_le _
  | cons r stack ih =>
      rw [spread_cons, List.length_cons]
      omega

/-- The stack has room for all parts of an array of at most 132 elements: 62 ranges with an element between
each two, and nine elements to split, are 133. -/
theorem dropsInOrder_short (order : PreorderOn cmp P) {fuel left : Nat} {stack : List (Nat × Nat)}
    (all : ∀ k < n, P (A k)) (inside : Inside n stack) (enough : n ≤ fuel) (short : spread stack ≤ 133) :
    DropsInOrder (items n cmp) fuel left stack A := by
  induction left generalizing stack A with
  | zero => trivial
  | succ left ih =>
      cases stack with
      | nil => trivial
      | cons r stack =>
          obtain ⟨lo, hi⟩ := r
          obtain ⟨ordered, bound⟩ := inside (lo, hi) List.mem_cons_self
          have rest : Inside n stack := fun r member => inside r (List.mem_cons_of_mem _ member)
          rw [spread_cons] at short
          dsimp only at ordered bound short
          rw [DropsInOrder]
          split_ifs with single small room
          · exact ih all rest (by omega)
          · intro s' result
            obtain ⟨A₁, sorted, within, -⟩ := isort_spec order all ordered bound
            rw [sorted] at result
            cases result
            exact ih (within.keeps bound all) rest (by omega)
          · intro s' i result
            obtain ⟨A₁, i', split, within, low, high, -, -⟩ :=
              partition_spec order all (Nat.not_lt.mp small) bound enough
            rw [split] at result
            cases result
            refine ih (within.keeps bound all) (fun r member => ?_) ?_
            · rcases List.mem_cons.mp member with rfl | later
              · exact ⟨high, bound⟩
              · rcases List.mem_cons.mp later with rfl | old
                · exact ⟨by dsimp only; omega, by dsimp only; omega⟩
                · exact rest r old
            · rw [spread_cons, spread_cons]
              dsimp only
              omega
          · have fits := length_le_spread stack
            unfold qsortStack at room
            omega

/-- A part of at most one element is dropped in order. -/
theorem dropsInOrder_single (short : n < 2) (fuel : Nat) : DropsInOrder (items n cmp) fuel fuel [(0, n - 1)] A := by
  cases fuel with
  | zero => trivial
  | succ fuel =>
      rw [DropsInOrder, if_pos (show n - 1 ≤ 0 by omega)]
      cases fuel <;> trivial

/-- At most 132 elements leave no part that is dropped out of order. -/
theorem dropsInOrder_few (order : PreorderOn cmp P) (all : ∀ k < n, P (A k)) {fuel : Nat} (enough : n ≤ fuel)
    (few : n ≤ 132) : DropsInOrder (items n cmp) fuel fuel [(0, n - 1)] A := by
  by_cases none : n = 0
  · exact dropsInOrder_single (by omega) fuel
  · refine dropsInOrder_short order all (fun r member => ?_) enough ?_
    · rw [List.mem_singleton.mp member]
      exact ⟨Nat.zero_le _, Nat.sub_one_lt none⟩
    · rw [spread_cons]
      simp only [spread, List.map_nil, List.sum_nil]
      omega

/-- `qsort` ends, permutes the array, and leaves it in order exactly when all it drops is in order. -/
theorem qsort_items (order : PreorderOn cmp P) (all : ∀ k < n, P (A k)) {fuel sz : Nat} (real : sz ≠ 0)
    (enough : 2 * n ≤ fuel) : ∃ A', qsort (items n cmp) fuel n sz A = some A' ∧
      ((List.range n).map A').Perm ((List.range n).map A) ∧
      ((∀ i j, i ≤ j → j < n → cmp (A' i) (A' j) ≤ 0) ↔ DropsInOrder (items n cmp) fuel fuel [(0, n - 1)] A) := by
  unfold qsort
  by_cases short : n < 2
  · rw [if_pos (.inl short)]
    refine ⟨A, rfl, List.Perm.refl _, iff_of_true (fun i j between below => ?_) ?_⟩
    · have same : i = j := by omega
      rw [same]
      exact Int.le_of_eq (order.self (all j below))
    · exact dropsInOrder_single short fuel
  · have inside : Inside n [(0, n - 1)] := by
      intro r member
      rw [List.mem_singleton.mp member]
      exact ⟨Nat.zero_le _, by dsimp only; omega⟩
    have fits : weight [(0, n - 1)] ≤ fuel := by
      rw [weight_cons]
      simp only [weight, List.map_nil, List.sum_nil]
      omega
    have settled : Settled n cmp A [(0, n - 1)] := by
      refine ⟨List.pairwise_singleton _ _, fun i j before below => .inl ?_⟩
      exact ⟨(0, n - 1), List.mem_singleton.mpr rfl, Nat.zero_le i, Nat.le_sub_one_of_lt below⟩
    have positive : 0 < n := by omega
    have fuelled : n ≤ fuel := by omega
    obtain ⟨A', spec⟩ := qsortLoop_spec order positive all inside fuelled fits
    rw [if_neg (not_or.mpr ⟨short, real⟩)]
    have last : n - 1 < n := by omega
    refine ⟨A', spec.ends, spec.permutes.perm last, ?_⟩
    rw [← spec.sorts settled]
    constructor
    · intro sorted i j _ between high
      exact sorted i j between (by omega)
    · intro sorted i j between below
      exact sorted i j (Nat.zero_le i) between (by omega)

end Values

end Systrix.Libc
