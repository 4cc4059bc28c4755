import Systrix.Libc.SortLaws

/-!
# Sorting in memory

`qsort` and `bsearch` on elements of any size in memory, for a comparison of their bytes.
-/

namespace Systrix.Libc

open ByteMemory Rearrange

/-- The bytes of element `i`. -/
def element (m : Memory) (base sz i : Nat) : List UInt8 := slice m (base + i * sz) sz

/-! ## Swapping two elements -/

theorem swapBytes_apply {m : Memory} {a b i left : Nat} (apart : a + (i + left) ≤ b ∨ b + (i + left) ≤ a) (q : Nat) :
    swapBytes m a b i left q =
      if a + i ≤ q ∧ q < a + (i + left) then m (b + (q - a))
      else if b + i ≤ q ∧ q < b + (i + left) then m (a + (q - b)) else m q := by
  induction left generalizing m i with
  | zero => rw [if_neg (by omega), if_neg (by omega), swapBytes]
  | succ left ih =>
      rw [swapBytes, ih (by omega)]
      have other : ∀ k, k ≠ a + i → k ≠ b + i →
          Function.update (Function.update m (a + i) (m (b + i))) (b + i) (m (a + i)) k = m k := by
        intro k notA notB
        rw [Function.update_of_ne notB, Function.update_of_ne notA]
      by_cases inA : a + (i + 1) ≤ q ∧ q < a + (i + 1 + left)
      · rw [if_pos inA, if_pos (by omega), other _ (by omega) (by omega)]
      rw [if_neg inA]
      by_cases inB : b + (i + 1) ≤ q ∧ q < b + (i + 1 + left)
      · rw [if_pos inB, if_neg (by omega), if_pos (by omega), other _ (by omega) (by omega)]
      rw [if_neg inB]
      by_cases isA : q = a + i
      · have offset : b + (q - a) = b + i := by omega
        rw [if_pos (by omega), offset, isA, Function.update_of_ne (by omega), Function.update_self]
      by_cases isB : q = b + i
      · have offset : a + (q - b) = a + i := by omega
        rw [if_neg (by omega), if_pos (by omega), offset, isB, Function.update_self]
      · rw [if_neg (by omega), if_neg (by omega), other q isA isB]

/-- An element swapped with itself stays. -/
theorem swapBytes_self (m : Memory) (a i left : Nat) : swapBytes m a a i left = m := by
  induction left generalizing i with
  | zero => rfl
  | succ left ih =>
      rw [swapBytes, Function.update_eq_self, Function.update_eq_self, ih]

theorem block_le {i j : Nat} (sz : Nat) (before : i < j) : i * sz + sz ≤ j * sz := by
  rw [← Nat.succ_mul]
  exact Nat.mul_le_mul_right sz before

/-- The memory holds an array of values in its elements, and is as it was outside of them. -/
structure Represents (base nmemb sz : Nat) (m₀ m : Memory) (A : Nat → List UInt8) : Prop where
  elements : ∀ i < nmemb, A i = element m base sz i
  outside : SameOutside m m₀ base (base + nmemb * sz)

theorem Represents.exchange {base nmemb sz i j : Nat} {m₀ m : Memory} {A : Nat → List UInt8}
    (represents : Represents base nmemb sz m₀ m A) (left : i < nmemb) (right : j < nmemb) (ne : i ≠ j) :
    Represents base nmemb sz m₀ (swapBytes m (base + i * sz) (base + j * sz) 0 sz) (Rearrange.exchange A i j) := by
  have apartOf : ∀ {k l : Nat}, k ≠ l → k * sz + sz ≤ l * sz ∨ l * sz + sz ≤ k * sz := fun different =>
    (Nat.lt_or_gt_of_ne different).imp (block_le sz) (block_le sz)
  have away := apartOf ne
  have bytes := fun q => @swapBytes_apply m (base + i * sz) (base + j * sz) 0 sz (by omega) q
  constructor
  · intro k below
    by_cases isI : k = i
    · subst isI
      rw [exchange_left, represents.elements j right]
      refine List.map_congr_left fun offset member => ?_
      have inBlock := List.mem_range.mp member
      have index : base + j * sz + (base + k * sz + offset - (base + k * sz)) = base + j * sz + offset := by omega
      rw [bytes, if_pos (by omega), index]
    by_cases isJ : k = j
    · subst isJ
      rw [exchange_right, represents.elements i left]
      refine List.map_congr_left fun offset member => ?_
      have inBlock := List.mem_range.mp member
      have index : base + i * sz + (base + k * sz + offset - (base + k * sz)) = base + i * sz + offset := by omega
      rw [bytes, if_neg (by omega), if_pos (by omega), index]
    · rw [exchange_of_ne A isI isJ, represents.elements k below]
      refine List.map_congr_left fun offset member => ?_
      have inBlock := List.mem_range.mp member
      have awayI := apartOf isI
      have awayJ := apartOf isJ
      rw [bytes, if_neg (by omega), if_neg (by omega)]
  · intro q outside
    have endI := block_le sz left
    have endJ := block_le sz right
    rw [bytes, if_neg (by omega), if_neg (by omega)]
    exact represents.outside q outside

/-- The elements in memory are compared and swapped like the values they hold. -/
theorem elementsAt_simulates (base nmemb sz : Nat) (cmp : List UInt8 → List UInt8 → Int) (m₀ : Memory) :
    Simulates (elementsAt base nmemb sz cmp) (items nmemb cmp) (Represents base nmemb sz m₀) where
  cmp := by
    intro m A represents i j
    unfold elementsAt items
    dsimp only
    split_ifs with inside
    · rw [represents.elements i inside.1, represents.elements j inside.2]
      rfl
    · rfl
  swap := by
    intro m A represents i j
    unfold elementsAt items
    dsimp only
    split_ifs with inside
    · refine .some ?_
      by_cases same : i = j
      · subst same
        have still : exchange A i i = A := by
          funext k
          rw [exchange, Equiv.swap_self]
          rfl
        rw [swapBytes_self, still]
        exact represents
      · exact represents.exchange inside.1 inside.2 same
    · exact .none

/-! ## Searching -/

theorem bsearchLoop_found {probe : Nat → Int} {lo hi i : Nat} (found : bsearchLoop probe lo hi = some i) :
    i < hi ∧ probe i = 0 := by
  fun_induction bsearchLoop probe lo hi with
  | case1 lo hi more mid r equal =>
      have same : mid = i := Option.some.inj found
      rw [← same]
      exact ⟨by omega, equal⟩
  | case2 lo hi more mid r differs below ih =>
      obtain ⟨before, isMatch⟩ := ih found
      exact ⟨by omega, isMatch⟩
  | case3 lo hi more mid r differs notBelow ih => exact ih found
  | case4 lo hi done => cases found

/-- When no element past a larger one matches, and none before a smaller one, the loop misses none. -/
theorem bsearchLoop_finds {probe : Nat → Int} {n lo hi i : Nat} (within : hi ≤ n)
    (below : ∀ j k, j ≤ k → k < n → probe j < 0 → probe k ≠ 0)
    (above : ∀ j k, k ≤ j → j < n → 0 < probe j → probe k ≠ 0) (low : lo ≤ i) (high : i < hi)
    (isMatch : probe i = 0) : bsearchLoop probe lo hi ≠ none := by
  fun_induction bsearchLoop probe lo hi with
  | case1 lo hi more mid r equal => exact Option.some_ne_none _
  | case2 lo hi more mid r differs isBelow ih =>
      refine ih (by omega) low ?_
      by_contra past
      exact below mid i (Nat.not_lt.mp past) (by omega) isBelow isMatch
  | case3 lo hi more mid r differs notBelow ih =>
      refine ih within ?_ high
      by_contra before
      refine above mid i (by omega) (by omega) ?_ isMatch
      omega
  | case4 lo hi done => exact absurd (Nat.lt_of_le_of_lt low high) done

/-! ## Sorting -/

/-- The array is sorted, in place, and a search in it finds a matching element if there is one. -/
structure Sorts (base nmemb sz : Nat) (cmp : List UInt8 → List UInt8 → Int) (P : List UInt8 → Prop)
    (m m' : Memory) : Prop where
  outside : SameOutside m' m base (base + nmemb * sz)
  permutes : ((List.range nmemb).map (element m' base sz)).Perm ((List.range nmemb).map (element m base sz))
  sorted : ∀ i j, i ≤ j → j < nmemb → cmp (element m' base sz i) (element m' base sz j) ≤ 0
  found : ∀ key, P key → ∀ p, bsearch m' key base nmemb sz cmp = some p →
    ∃ i < nmemb, p = base + i * sz ∧ cmp key (element m' base sz i) = 0
  finds : ∀ key, P key → ∀ i < nmemb, cmp key (element m' base sz i) = 0 → bsearch m' key base nmemb sz cmp ≠ none

theorem bsearch_found {m : Memory} {key : List UInt8} {base nmemb sz p : Nat} {cmp : List UInt8 → List UInt8 → Int}
    (found : bsearch m key base nmemb sz cmp = some p) :
    ∃ i < nmemb, p = base + i * sz ∧ cmp key (element m base sz i) = 0 := by
  obtain ⟨i, result, rfl⟩ := Option.map_eq_some_iff.mp found
  obtain ⟨below, isMatch⟩ := bsearchLoop_found result
  exact ⟨i, below, rfl, isMatch⟩

/-- A search in a sorted array finds a matching element. -/
theorem bsearch_finds {m : Memory} {key : List UInt8} {base nmemb sz : Nat} {cmp : List UInt8 → List UInt8 → Int}
    {P : List UInt8 → Prop} (order : PreorderOn cmp P) (all : ∀ i < nmemb, P (element m base sz i)) (isKey : P key)
    (sorted : ∀ i j, i ≤ j → j < nmemb → cmp (element m base sz i) (element m base sz j) ≤ 0) {i : Nat}
    (inside : i < nmemb) (isMatch : cmp key (element m base sz i) = 0) : bsearch m key base nmemb sz cmp ≠ none := by
  have finds : bsearchLoop (fun i => cmp key (element m base sz i)) 0 nmemb ≠ none := by
    refine bsearchLoop_finds (Nat.le_refl nmemb) ?_ ?_ (Nat.zero_le i) inside isMatch
    · intro j k between below smaller equal
      have isJ := all j (Nat.lt_of_le_of_lt between below)
      have flipped := order.flip key (element m base sz k) isKey (all k below)
      have strict := order.flip key (element m base sz j) isKey isJ
      have back := order.flip (element m base sz k) key (all k below) isKey
      have le := order.trans _ _ _ isJ (all k below) isKey (sorted j k between below) (by omega)
      omega
    · intro j k between below larger equal
      have isK := all k (Nat.lt_of_le_of_lt between below)
      have le := order.trans _ _ _ isKey isK (all j below) (Int.le_of_eq equal) (sorted k j between below)
      omega
  intro none
  exact finds (Option.map_eq_none_iff.mp none)

/-- An array that holds the same elements in the order of `A` is sorted in place exactly when `A` is in order. -/
theorem Represents.sorts_iff {base nmemb sz : Nat} {cmp : List UInt8 → List UInt8 → Int} {P : List UInt8 → Prop}
    {m m' : Memory} {A : Nat → List UInt8} (represents : Represents base nmemb sz m m' A) (order : PreorderOn cmp P)
    (all : ∀ i < nmemb, P (element m base sz i))
    (permutes : ((List.range nmemb).map A).Perm ((List.range nmemb).map (element m base sz))) :
    Sorts base nmemb sz cmp P m m' ↔ ∀ i j, i ≤ j → j < nmemb → cmp (A i) (A j) ≤ 0 := by
  have elements : ∀ i < nmemb, element m' base sz i = A i := fun i below => (represents.elements i below).symm
  have listed : (List.range nmemb).map (element m' base sz) = (List.range nmemb).map A :=
    List.map_congr_left fun i member => elements i (List.mem_range.mp member)
  constructor
  · intro sorted i j between below
    rw [← elements i (Nat.lt_of_le_of_lt between below), ← elements j below]
    exact sorted.sorted i j between below
  · intro sorted
    have sorted' : ∀ i j, i ≤ j → j < nmemb → cmp (element m' base sz i) (element m' base sz j) ≤ 0 := by
      intro i j between below
      rw [elements i (Nat.lt_of_le_of_lt between below), elements j below]
      exact sorted i j between below
    rw [← listed] at permutes
    have all' : ∀ i < nmemb, P (element m' base sz i) := by
      intro i below
      have member := permutes.subset (List.mem_map_of_mem (List.mem_range.mpr below))
      obtain ⟨k, inside, same⟩ := List.mem_map.mp member
      rw [← same]
      exact all k (List.mem_range.mp inside)
    exact ⟨represents.outside, permutes, sorted', fun _ _ _ found => bsearch_found found,
      fun _ isKey _ inside isMatch => bsearch_finds order all' isKey sorted' inside isMatch⟩

/-- `qsort` ends and touches only its array; the array is sorted exactly when `qsort` drops no part that is not
in order, which it never does with at most 132 elements. -/
theorem qsort_sorts_iff {base nmemb sz fuel : Nat} {cmp : List UInt8 → List UInt8 → Int} {P : List UInt8 → Prop}
    {m : Memory} (order : PreorderOn cmp P) (all : ∀ i < nmemb, P (element m base sz i)) (real : 0 < sz)
    (enough : 2 * nmemb ≤ fuel) : ∃ m', qsort (elementsAt base nmemb sz cmp) fuel nmemb sz m = some m' ∧
      (Sorts base nmemb sz cmp P m m' ↔
        DropsInOrder (elementsAt base nmemb sz cmp) fuel fuel [(0, nmemb - 1)] m) ∧
      (nmemb ≤ 132 → DropsInOrder (elementsAt base nmemb sz cmp) fuel fuel [(0, nmemb - 1)] m) := by
  have sim := elementsAt_simulates base nmemb sz cmp m
  have represents : Represents base nmemb sz m m (element m base sz) := ⟨fun _ _ => rfl, SameOutside.refl m _ _⟩
  obtain ⟨A', ends, permutes, sorts⟩ := qsort_items order all (Nat.ne_of_gt real) enough
  have results := sim.qsort represents fuel nmemb sz
  rw [ends] at results
  generalize isResult : qsort (elementsAt base nmemb sz cmp) fuel nmemb sz m = result at results
  cases results with
  | some represents' =>
      rename_i m'
      refine ⟨m', rfl, ?_, fun few => ?_⟩
      · rw [sim.dropsInOrder represents, ← sorts]
        exact represents'.sorts_iff order all permutes
      · rw [sim.dropsInOrder represents]
        exact dropsInOrder_few order all (by omega) few

/-- Elements of one byte, compared as numbers. -/
def cmpByte (x y : List UInt8) : Int := (x.headD 0).toNat - (y.headD 0).toNat

theorem cmpByte_preorder : PreorderOn cmpByte fun _ => True where
  flip x y _ _ := by
    unfold cmpByte
    omega
  trans x y z _ _ _ := by
    unfold cmpByte
    omega

theorem qsort_sorts_iff_bytes : ∃ m',
    qsort (elementsAt 0x1000 3 1 cmpByte) 6 3 1 (fun a => UInt8.ofNat (7 * a)) = some m' ∧
      Sorts 0x1000 3 1 cmpByte (fun _ => True) (fun a => UInt8.ofNat (7 * a)) m' := by
  obtain ⟨m', ends, sorts, small⟩ :=
    @qsort_sorts_iff 0x1000 3 1 6 cmpByte (fun _ => True) (fun a => UInt8.ofNat (7 * a)) cmpByte_preorder
      (fun _ _ => trivial) (by decide) (by decide)
  exact ⟨m', ends, sorts.mpr (small (by decide))⟩

/-! ## An array that is not sorted -/

/-- A byte of a number. -/
def digit (N i : Nat) : Nat := (N >>> (8 * i)) % 2 ^ 8

/-- Bytes as a number. -/
def pack : List Nat → Nat
  | [] => 0
  | d :: ds => d + 256 * pack ds

/-- An array of bytes in a number, compared as numbers. -/
def packed (n : Nat) : Elements Nat where
  cmp N i j := if i < n ∧ j < n then some ((digit N i : Int) - digit N j) else none
  swap N i j :=
    if i < n ∧ j < n then
      let d := digit N i ^^^ digit N j
      some (N ^^^ (d <<< (8 * i)) ^^^ (d <<< (8 * j)))
    else none

theorem digit_lt (N i : Nat) : digit N i < 2 ^ 8 := Nat.mod_lt _ (by decide)

theorem digit_xor (N M i : Nat) : digit (N ^^^ M) i = digit N i ^^^ digit M i := by
  refine Nat.eq_of_testBit_eq fun b => ?_
  simp only [digit, Nat.testBit_mod_two_pow, Nat.testBit_shiftRight, Nat.testBit_xor]
  cases decide (b < 8) <;> simp

theorem digit_shiftLeft {d : Nat} (small : d < 2 ^ 8) (i k : Nat) :
    digit (d <<< (8 * i)) k = if k = i then d else 0 := by
  refine Nat.eq_of_testBit_eq fun b => ?_
  have high : ∀ c, 8 ≤ c → d.testBit c = false := fun c above =>
    Nat.testBit_lt_two_pow (Nat.lt_of_lt_of_le small (Nat.pow_le_pow_right (by decide) above))
  simp only [digit, Nat.testBit_mod_two_pow, Nat.testBit_shiftRight, Nat.testBit_shiftLeft]
  by_cases same : k = i
  · subst same
    rw [if_pos rfl, Nat.add_sub_cancel_left]
    by_cases low : b < 8
    · simp [low]
    · simp [low, high b (Nat.not_lt.mp low)]
  · rw [if_neg same, Nat.zero_testBit]
    by_cases low : b < 8
    · by_cases above : 8 * i ≤ 8 * k + b
      · simp [low, above, high (8 * k + b - 8 * i) (by omega)]
      · simp [above]
    · simp [low]

/-- Exchanging two bytes by the bits in which they differ. -/
theorem digit_swap (N : Nat) {i j : Nat} (k : Nat) :
    digit (N ^^^ ((digit N i ^^^ digit N j) <<< (8 * i)) ^^^ ((digit N i ^^^ digit N j) <<< (8 * j))) k =
      digit N (Equiv.swap i j k) := by
  have small : digit N i ^^^ digit N j < 2 ^ 8 := Nat.xor_lt_two_pow (digit_lt N i) (digit_lt N j)
  rw [digit_xor, digit_xor, digit_shiftLeft small, digit_shiftLeft small, Equiv.swap_apply_def]
  by_cases isI : k = i
  · subst isI
    by_cases same : k = j
    · subst same
      simp
    · rw [if_pos rfl, if_neg same, if_pos rfl, Nat.xor_zero, ← Nat.xor_assoc, Nat.xor_self, Nat.zero_xor]
  · by_cases isJ : k = j
    · subst isJ
      rw [if_neg isI, if_pos rfl, if_neg isI, if_pos rfl, Nat.xor_zero,
        Nat.xor_comm (digit N i), ← Nat.xor_assoc, Nat.xor_self, Nat.zero_xor]
    · rw [if_neg isI, if_neg isJ, if_neg isI, if_neg isJ, Nat.xor_zero, Nat.xor_zero]

/-- A number holds the bytes of an array. -/
def Packs (n : Nat) (A : Nat → List UInt8) (N : Nat) : Prop := ∀ i < n, A i = [UInt8.ofNat (digit N i)]

theorem items_simulates_packed (n : Nat) : Simulates (items n cmpByte) (packed n) (Packs n) where
  cmp := by
    intro A N packs i j
    unfold items packed
    dsimp only
    split_ifs with inside
    · rw [packs i inside.1, packs j inside.2]
      simp only [cmpByte, List.headD_cons, UInt8.toNat_ofNat', Nat.mod_eq_of_lt (digit_lt N i),
        Nat.mod_eq_of_lt (digit_lt N j)]
    · rfl
  swap := by
    intro A N packs i j
    unfold items packed
    dsimp only
    split_ifs with inside
    · refine .some fun k below => ?_
      have within : Equiv.swap i j k < n := by
        rw [Equiv.swap_apply_def]
        split_ifs
        · exact inside.2
        · exact inside.1
        · exact below
      rw [digit_swap]
      exact packs _ within
    · exact .none

/-- Each range of the partition leaves one element below its pivot, so the stack runs full. -/
def medianKiller : List Nat :=
  [0, 103, 5, 71, 7, 127, 9, 73, 11, 105, 13, 75, 15, 121, 17, 77, 19, 107, 21, 79, 23, 132, 25, 81, 27, 109,
   29, 83, 31, 123, 33, 85, 35, 111, 37, 87, 39, 131, 41, 89, 43, 113, 45, 91, 47, 125, 49, 93, 51, 115, 53,
   95, 55, 130, 57, 97, 59, 117, 61, 99, 63, 126, 65, 101, 67, 119, 3, 2, 4, 6, 8, 10, 12, 14, 16, 18, 20, 22,
   24, 26, 28, 30, 32, 34, 36, 38, 40, 42, 44, 46, 48, 50, 52, 54, 56, 58, 60, 62, 64, 66, 68, 70, 72, 74, 76,
   78, 80, 82, 84, 86, 88, 90, 92, 94, 96, 98, 100, 102, 104, 106, 108, 110, 112, 114, 116, 118, 120, 122, 124,
   129, 128, 69, 1]

/-- The array in memory. -/
def killerMemory : Memory := fun a => UInt8.ofNat (digit (pack medianKiller) a)

/-- An array of 133 bytes is not sorted. -/
theorem qsort_drops_unsorted : ¬∀ base nmemb sz fuel cmp P m, PreorderOn cmp P →
    (∀ i < nmemb, P (element m base sz i)) → 0 < sz → 2 * nmemb ≤ fuel →
    ∃ m', qsort (elementsAt base nmemb sz cmp) fuel nmemb sz m = some m' ∧ Sorts base nmemb sz cmp P m m' := by
  intro promise
  obtain ⟨m', ends, sorts⟩ := promise 0 133 1 266 cmpByte (fun _ => True) killerMemory cmpByte_preorder
    (fun _ _ => trivial) (by decide) (by decide)
  have represents : Represents 0 133 1 killerMemory killerMemory (element killerMemory 0 1) :=
    ⟨fun _ _ => rfl, SameOutside.refl _ _ _⟩
  have packs : Packs 133 (element killerMemory 0 1) (pack medianKiller) := fun i _ => by
    simp [element, slice, killerMemory]
  have inMemory := (elementsAt_simulates 0 133 1 cmpByte killerMemory).qsort represents 266 133 1
  have inNumber := (items_simulates_packed 133).qsort packs 266 133 1
  have run : (qsort (packed 133) 266 133 1 (pack medianKiller)).map (fun N => (digit N 126, digit N 127)) =
      some (132, 131) := by decide +kernel
  obtain ⟨N, isNumber, digits⟩ := Option.map_eq_some_iff.mp run
  obtain ⟨left, right⟩ := Prod.mk.inj digits
  rw [ends] at inMemory
  rw [isNumber] at inNumber
  revert inMemory inNumber
  cases qsort (items 133 cmpByte) 266 133 1 (element killerMemory 0 1) with
  | none => exact fun related => by cases related
  | some A =>
      rintro (memory | _) (number | _)
      have sorted := sorts.sorted 126 127 (by decide) (by decide)
      rw [← memory.elements 126 (by decide), ← memory.elements 127 (by decide), number 126 (by decide),
        number 127 (by decide), left, right] at sorted
      exact absurd sorted (by decide)

end Systrix.Libc
