import Mathlib.Algebra.GroupWithZero.Nat
import Mathlib.Data.Nat.Count
import Mathlib.Tactic.Common

/-!
# Arrays of words as arrays of bits

Bit `i` of an array of `w`-bit words is bit `i % w` of word `i / w`.
-/

namespace BitWords

variable {w : Nat}

/-- A bit of an array of words; there are no ones behind the array. -/
def bit (words : List (BitVec w)) (i : Nat) : Bool := (words.getD (i / w) 0).getLsbD (i % w)

/-- The number of trailing zeros. -/
def ctz (x : BitVec w) : Nat := ((List.range w).find? fun i => x.getLsbD i).getD w

/-- The first index from `start` on, and below `size`, where `p` holds; `size` if there is none. -/
def IsFirst (p : Nat → Prop) (start size found : Nat) : Prop :=
  (start ≤ found ∧ found < size ∧ p found ∧ ∀ i, start ≤ i → i < found → ¬p i) ∨
    (found = size ∧ ∀ i, start ≤ i → i < size → ¬p i)

variable {words : List (BitVec w)}

theorem bit_eq {i : Nat} {x : BitVec w} (found : words[i / w]? = some x) : bit words i = x.getLsbD (i % w) := by
  rw [bit, List.getD_eq_getElem?_getD, found]
  rfl

theorem bit_of_length_le {i : Nat} (behind : words.length ≤ i / w) : bit words i = false := by
  rw [bit, List.getD_eq_getElem?_getD, List.getElem?_eq_none behind]
  exact BitVec.getLsbD_zero

/-- One word is assigned to. -/
theorem bit_set {i : Nat} (inside : i / w < words.length) (x : BitVec w) (j : Nat) :
    bit (words.set (i / w) x) j = if j / w = i / w then x.getLsbD (j % w) else bit words j := by
  by_cases same : j / w = i / w
  · rw [if_pos same, bit_eq]
    rw [same]
    exact List.getElem?_set_self inside
  · rw [if_neg same, bit, bit, List.getD_eq_getElem?_getD, List.getD_eq_getElem?_getD,
      List.getElem?_set_ne (Ne.symm same)]

theorem bit_cons (first : BitVec w) {i : Nat} (some : 0 < w) : bit (first :: words) (w + i) = bit words i := by
  unfold bit
  rw [Nat.add_div_left i some, Nat.add_mod_left, List.getD_cons_succ]

theorem bit_cons_of_lt (first : BitVec w) {i : Nat} (inside : i < w) : bit (first :: words) i = first.getLsbD i := by
  unfold bit
  rw [Nat.div_eq_of_lt inside, Nat.mod_eq_of_lt inside]
  rfl

theorem count_congr {p q : Nat → Bool} {n : Nat} (same : ∀ i < n, p i = q i) :
    Nat.count (fun i => p i) n = Nat.count (fun i => q i) n := by
  unfold Nat.count
  refine List.countP_congr fun i member => ?_
  change decide (p i = true) = true ↔ decide (q i = true) = true
  rw [same i (List.mem_range.mp member)]

/-- The ones of an array are those of its words. -/
theorem count_bit (some : 0 < w) (words : List (BitVec w)) :
    Nat.count (fun i => bit words i) (w * words.length) =
      (words.map fun x => Nat.count (fun i => x.getLsbD i) w).sum := by
  induction words with
  | nil => rfl
  | cons first words ih =>
      have low : Nat.count (fun i => bit (first :: words) i) w = Nat.count (fun i => first.getLsbD i) w :=
        count_congr fun i inside => by rw [bit_cons_of_lt first inside]
      have high : Nat.count (fun i => bit (first :: words) (w + i)) (w * words.length) =
          Nat.count (fun i => bit words i) (w * words.length) :=
        count_congr fun i _ => by rw [bit_cons first some]
      rw [List.length_cons, Nat.mul_succ, Nat.add_comm, Nat.count_add, low, high, ih, List.map_cons, List.sum_cons]

/-! ## Search in one word -/

theorem ctz_spec {x : BitVec w} (real : x ≠ 0) :
    ctz x < w ∧ x.getLsbD (ctz x) = true ∧ ∀ i < ctz x, x.getLsbD i = false := by
  unfold ctz
  cases found : (List.range w).find? fun i => x.getLsbD i with
  | none =>
      refine absurd (BitVec.eq_of_getLsbD_eq fun i inside => ?_) real
      have zero := List.find?_eq_none.mp found i (List.mem_range.mpr inside)
      exact (Bool.eq_false_iff.mpr zero).trans BitVec.getLsbD_zero.symm
  | some k =>
      obtain ⟨isOne, inside, before⟩ := List.find?_range_eq_some.mp found
      refine ⟨List.mem_range.mp inside, isOne, fun i below => ?_⟩
      have zero := before i below
      rwa [Bool.not_eq_true'] at zero

/-- The bits of a word from bit `b % w` on, which a search moves to the bottom of the word. -/
theorem getLsbD_shifted (x : BitVec w) (b i : Nat) : (x >>> (b % w)).getLsbD i = x.getLsbD (b % w + i) := by
  rw [BitVec.getLsbD_ushiftRight]

/-- A word that is zero from bit `b % w` on has no ones there. -/
theorem scan_zero {x : BitVec w} {b : Nat} (zero : x >>> (b % w) = 0) {i : Nat} (after : b ≤ i)
    (same : i / w = b / w) : x.getLsbD (i % w) = false := by
  have position : b % w + (i % w - b % w) = i % w := by
    have order : b % w ≤ i % w := by
      have left := Nat.div_add_mod b w
      have right := Nat.div_add_mod i w
      rw [same] at right
      omega
    omega
  rw [← position, ← getLsbD_shifted, zero]
  exact BitVec.getLsbD_zero

/-- A word that is not zero from bit `b % w` on has its first one there at the number of trailing zeros. -/
theorem scan_found {x : BitVec w} {b : Nat} (real : x >>> (b % w) ≠ 0) :
    let found := b + ctz (x >>> (b % w))
    found / w = b / w ∧ x.getLsbD (found % w) = true ∧
      ∀ i, b ≤ i → i < found → i / w = b / w ∧ x.getLsbD (i % w) = false := by
  obtain ⟨-, isOne, before⟩ := ctz_spec real
  rw [getLsbD_shifted] at isOne
  have inside : b % w + ctz (x >>> (b % w)) < w := BitVec.lt_of_getLsbD isOne
  have whole := Nat.div_add_mod b w
  have place : ∀ k, b % w + k < w → (b + k) / w = b / w ∧ (b + k) % w = b % w + k := by
    intro k below
    have sum : b + k = w * (b / w) + (b % w + k) := by omega
    rw [sum, Nat.mul_add_div (Nat.zero_lt_of_lt below), Nat.div_eq_of_lt below, Nat.add_zero, Nat.mul_add_mod,
      Nat.mod_eq_of_lt below]
    exact ⟨rfl, rfl⟩
  obtain ⟨sameWord, position⟩ := place _ inside
  refine ⟨sameWord, position.symm ▸ isOne, fun i after below => ?_⟩
  obtain ⟨k, rfl⟩ := Nat.exists_eq_add_of_le after
  have earlier : k < ctz (x >>> (b % w)) := by omega
  obtain ⟨sameWord, position⟩ := place k (by omega)
  refine ⟨sameWord, ?_⟩
  rw [position, ← getLsbD_shifted]
  exact before k earlier

end BitWords
