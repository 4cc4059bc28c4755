import Mathlib.Data.Nat.Bitwise
import Mathlib.Data.Nat.Count
import Mathlib.Data.Nat.Digits.Defs
import Mathlib.Tactic.Common
import Mathlib.Tactic.Ring

/-!
# Lanes of a word

A number as a list of digits of `w` bits, least significant first, and what masks and shifts do to all
digits at once.  Adding neighbours again and again counts the bits of a word.
-/

namespace Lanes

open Nat

/-- Every other lane, from the first on. -/
def evens : List Nat → List Nat
  | a :: _ :: lanes => a :: evens lanes
  | _ => []

/-- Every other lane, from the second on. -/
def odds : List Nat → List Nat
  | _ :: b :: lanes => b :: odds lanes
  | _ => []

/-- The sums of neighbours. -/
def halve : List Nat → List Nat
  | a :: b :: lanes => (a + b) :: halve lanes
  | _ => []

/-- Each lane with the next one added to it. -/
def withNext : List Nat → List Nat
  | [] => []
  | a :: lanes => (a + lanes.headD 0) :: withNext lanes

/-- The mask of the even ones of `2 * k` lanes. -/
def evenMask (w k : Nat) : Nat := ofDigits (2 ^ (2 * w)) (List.replicate k (2 ^ w - 1))

theorem and_lanes {n a m : Nat} (below : a < 2 ^ n) (below' : m < 2 ^ n) (A M : Nat) :
    (a + 2 ^ n * A) &&& (m + 2 ^ n * M) = (a &&& m) + 2 ^ n * (A &&& M) := by
  apply Nat.eq_of_testBit_eq
  intro i
  rw [Nat.add_comm a, Nat.add_comm m, Nat.add_comm (a &&& m), Nat.testBit_and,
    Nat.testBit_two_pow_mul_add _ below, Nat.testBit_two_pow_mul_add _ below',
    Nat.testBit_two_pow_mul_add _ (Nat.and_lt_two_pow a below')]
  split
  · rw [Nat.testBit_and]
  · rw [Nat.testBit_and]

/-- Masking the even lanes. -/
theorem ofDigits_and_evenMask {w k : Nat} {lanes : List Nat} (count : lanes.length = 2 * k)
    (below : ∀ a ∈ lanes, a < 2 ^ w) :
    ofDigits (2 ^ w) lanes &&& evenMask w k = ofDigits (2 ^ (2 * w)) (evens lanes) := by
  induction k generalizing lanes with
  | zero =>
      rw [List.length_eq_zero_iff.mp count, ofDigits_nil, Nat.zero_and]
      rfl
  | succ k ih =>
      match lanes, count with
      | a :: b :: lanes, count =>
          have rest := @ih lanes (Nat.succ.inj (Nat.succ.inj count))
            fun c member => below c (List.mem_cons_of_mem a (List.mem_cons_of_mem b member))
          have first : a < 2 ^ w := below a List.mem_cons_self
          have second : b < 2 ^ w := below b (List.mem_cons_of_mem a List.mem_cons_self)
          have square : 2 ^ (2 * w) = 2 ^ w * 2 ^ w := by rw [Nat.two_mul, Nat.pow_add]
          have value : ofDigits (2 ^ w) (a :: b :: lanes) =
              (a + 2 ^ w * b) + 2 ^ (2 * w) * ofDigits (2 ^ w) lanes := by
            rw [ofDigits_cons, ofDigits_cons, square]
            ring
          have small : a + 2 ^ w * b < 2 ^ (2 * w) := by
            have step : 2 ^ w * b + 2 ^ w ≤ 2 ^ w * 2 ^ w := by
              rw [← Nat.mul_succ]
              exact Nat.mul_le_mul_left _ second
            omega
          have mask : 2 ^ w - 1 < 2 ^ (2 * w) :=
            Nat.lt_of_lt_of_le (Nat.sub_one_lt (Nat.two_pow_pos w).ne')
              (Nat.pow_le_pow_right (by decide) (Nat.le_mul_of_pos_left w (by decide)))
          have low : (a + 2 ^ w * b) &&& (2 ^ w - 1) = a := by
            rw [Nat.and_two_pow_sub_one_eq_mod, Nat.add_mul_mod_self_left, Nat.mod_eq_of_lt first]
          rw [value, evenMask, List.replicate_succ, ofDigits_cons, evens, ofDigits_cons,
            and_lanes small mask, low, ← rest, evenMask]

/-- A shift by one lane. -/
theorem ofDigits_shiftRight {w a : Nat} {lanes : List Nat} (first : a < 2 ^ w) :
    ofDigits (2 ^ w) (a :: lanes) >>> w = ofDigits (2 ^ w) (lanes ++ [0]) := by
  have last : ofDigits (2 ^ w) [0] = 0 := by rw [ofDigits_singleton]
  rw [Nat.shiftRight_eq_div_pow, ofDigits_cons, Nat.add_mul_div_left _ _ (Nat.two_pow_pos w),
    Nat.div_eq_of_lt first, Nat.zero_add, ofDigits_append, last, Nat.mul_zero, Nat.add_zero]

theorem evens_tail {k : Nat} {lanes : List Nat} (count : lanes.length = 2 * k) :
    evens (lanes.tail ++ [0]) = odds lanes := by
  induction k generalizing lanes with
  | zero =>
      rw [List.length_eq_zero_iff.mp count]
      rfl
  | succ k ih =>
      match lanes, count with
      | a :: b :: lanes, count =>
          have rest := @ih lanes (Nat.succ.inj (Nat.succ.inj count))
          cases lanes with
          | nil => rfl
          | cons c lanes =>
              rw [List.tail_cons, List.cons_append, List.cons_append, evens, odds, ← rest, List.tail_cons]

/-- Masking the odd lanes, moved into the place of the even ones. -/
theorem shift_and_evenMask {w k : Nat} {lanes : List Nat} (count : lanes.length = 2 * k)
    (below : ∀ a ∈ lanes, a < 2 ^ w) :
    ofDigits (2 ^ w) lanes >>> w &&& evenMask w k = ofDigits (2 ^ (2 * w)) (odds lanes) := by
  rw [← evens_tail count]
  cases lanes with
  | nil =>
      rw [ofDigits_nil, Nat.zero_shiftRight, Nat.zero_and]
      rfl
  | cons a lanes =>
      rw [ofDigits_shiftRight (below a List.mem_cons_self), List.tail_cons]
      refine ofDigits_and_evenMask ?_ fun b member => ?_
      · rw [List.length_append]
        exact count
      · rcases List.mem_append.mp member with inside | last
        · exact below b (List.mem_cons_of_mem a inside)
        · rw [List.mem_singleton.mp last]
          exact Nat.two_pow_pos w

theorem ofDigits_halve (base : Nat) (lanes : List Nat) :
    ofDigits base (halve lanes) = ofDigits base (evens lanes) + ofDigits base (odds lanes) := by
  induction lanes using halve.induct with
  | case1 a b lanes ih =>
      rw [halve, evens, odds, ofDigits_cons, ofDigits_cons, ofDigits_cons, ih]
      ring
  | case2 lanes short =>
      match lanes with
      | [] => rfl
      | [a] => rfl
      | a :: b :: lanes => exact absurd rfl (short a b lanes)

/-- A word is its even lanes and its odd ones. -/
theorem ofDigits_split {w k : Nat} {lanes : List Nat} (count : lanes.length = 2 * k) :
    ofDigits (2 ^ w) lanes =
      ofDigits (2 ^ (2 * w)) (evens lanes) + 2 ^ w * ofDigits (2 ^ (2 * w)) (odds lanes) := by
  induction k generalizing lanes with
  | zero =>
      rw [List.length_eq_zero_iff.mp count]
      rfl
  | succ k ih =>
      match lanes, count with
      | a :: b :: lanes, count =>
          have rest := @ih lanes (Nat.succ.inj (Nat.succ.inj count))
          have square : 2 ^ (2 * w) = 2 ^ w * 2 ^ w := by rw [Nat.two_mul, Nat.pow_add]
          rw [ofDigits_cons, ofDigits_cons, rest, evens, odds, ofDigits_cons, ofDigits_cons, square]
          ring

theorem ofDigits_withNext (base : Nat) (lanes : List Nat) :
    ofDigits base (withNext lanes) = ofDigits base lanes + ofDigits base lanes.tail := by
  induction lanes with
  | nil => rfl
  | cons a lanes ih =>
      cases lanes with
      | nil =>
          rw [withNext, withNext, List.headD_nil, List.tail_cons, ofDigits_nil, Nat.add_zero, Nat.add_zero]
      | cons b lanes =>
          rw [withNext, ofDigits_cons, ih, List.headD_cons, List.tail_cons, List.tail_cons, @ofDigits_cons base a,
            @ofDigits_cons base b]
          ring

theorem length_withNext (lanes : List Nat) : (withNext lanes).length = lanes.length := by
  induction lanes with
  | nil => rfl
  | cons a lanes ih => rw [withNext, List.length_cons, List.length_cons, ih]

theorem evens_withNext (lanes : List Nat) : evens (withNext lanes) = halve lanes := by
  induction lanes using halve.induct with
  | case1 a b lanes ih =>
      rw [withNext, withNext, evens, ih, halve, List.headD_cons]
  | case2 lanes short =>
      match lanes with
      | [] => rfl
      | [a] => rfl
      | a :: b :: lanes => exact absurd rfl (short a b lanes)

theorem withNext_lt {bound : Nat} {lanes : List Nat} (below : ∀ a ∈ lanes, a ≤ bound) :
    ∀ a ∈ withNext lanes, a ≤ 2 * bound := by
  induction lanes with
  | nil => exact fun _ none => nomatch none
  | cons first lanes ih =>
      intro a member
      rcases List.mem_cons.mp member with rfl | later
      · have here := below first List.mem_cons_self
        have next : lanes.headD 0 ≤ bound := by
          cases lanes with
          | nil => exact Nat.zero_le _
          | cons b lanes => exact below b (List.mem_cons_of_mem first List.mem_cons_self)
        omega
      · exact ih (fun a member => below a (List.mem_cons_of_mem first member)) a later

/-- Adding each lane to the one before it. -/
theorem add_shift {w : Nat} {lanes : List Nat} (below : ∀ a ∈ lanes, a < 2 ^ w) :
    ofDigits (2 ^ w) lanes + ofDigits (2 ^ w) lanes >>> w = ofDigits (2 ^ w) (withNext lanes) := by
  rw [ofDigits_withNext]
  cases lanes with
  | nil => rw [ofDigits_nil, Nat.zero_shiftRight, List.tail_nil, ofDigits_nil]
  | cons a lanes =>
      have last : ofDigits (2 ^ w) [0] = 0 := by rw [ofDigits_singleton]
      rw [ofDigits_shiftRight (below a List.mem_cons_self), List.tail_cons, @ofDigits_append (2 ^ w) lanes [0], last,
        Nat.mul_zero, Nat.add_zero]

/-- Adding each lane to the one before it, and masking the even ones. -/
theorem add_shift_and_evenMask {w k : Nat} {lanes : List Nat} (count : lanes.length = 2 * k)
    {bound : Nat} (below : ∀ a ∈ lanes, a ≤ bound) (room : 2 * bound < 2 ^ w) :
    (ofDigits (2 ^ w) lanes + ofDigits (2 ^ w) lanes >>> w) &&& evenMask w k =
      ofDigits (2 ^ (2 * w)) (halve lanes) := by
  rw [add_shift fun a member => Nat.lt_of_le_of_lt (below a member) (by omega),
    ofDigits_and_evenMask ((length_withNext lanes).trans count), evens_withNext]
  exact fun a member => Nat.lt_of_le_of_lt (withNext_lt below a member) room

theorem sum_halve {k : Nat} {lanes : List Nat} (count : lanes.length = 2 * k) :
    (halve lanes).sum = lanes.sum ∧ (halve lanes).length = k := by
  induction k generalizing lanes with
  | zero =>
      rw [List.length_eq_zero_iff.mp count]
      exact ⟨rfl, rfl⟩
  | succ k ih =>
      match lanes, count with
      | a :: b :: lanes, count =>
          obtain ⟨sum, length⟩ := @ih lanes (Nat.succ.inj (Nat.succ.inj count))
          rw [halve, List.sum_cons, List.sum_cons, List.sum_cons, List.length_cons, sum, length]
          exact ⟨Nat.add_assoc a b _, rfl⟩

theorem halve_le {bound : Nat} {lanes : List Nat} (below : ∀ a ∈ lanes, a ≤ bound) :
    ∀ a ∈ halve lanes, a ≤ 2 * bound := by
  rw [← evens_withNext]
  have sums := withNext_lt below
  generalize withNext lanes = lanes' at sums
  induction lanes' using evens.induct with
  | case1 a b lanes ih =>
      intro c member
      rw [evens] at member
      rcases List.mem_cons.mp member with rfl | later
      · exact sums _ List.mem_cons_self
      · exact ih (fun d member => sums d (List.mem_cons_of_mem a (List.mem_cons_of_mem b member))) c later
  | case2 lanes short =>
      intro c member
      rw [evens] at member
      · cases member
      · exact short

/-- The lanes of eight bytes are added up in the highest one by a multiplication. -/
theorem sum_bytes {lanes : List Nat} (count : lanes.length = 8) (below : ∀ a ∈ lanes, a ≤ 8) :
    ofDigits (2 ^ 8) lanes * 0x0101010101010101 % 2 ^ 64 / 2 ^ 56 = lanes.sum := by
  match lanes, count with
  | [a, b, c, d, e, f, g, h], _ =>
      simp only [List.mem_cons, List.not_mem_nil, or_false, forall_eq_or_imp, forall_eq] at below
      simp only [ofDigits_cons, ofDigits_nil, List.sum_cons, List.sum_nil]
      -- the sums of the first lanes, none of which leaves its byte, and what is cut off
      have product : (a + 2 ^ 8 * (b + 2 ^ 8 * (c + 2 ^ 8 * (d + 2 ^ 8 * (e + 2 ^ 8 * (f + 2 ^ 8 * (g + 2 ^ 8 *
          (h + 2 ^ 8 * 0)))))))) * 0x0101010101010101 =
          (a + 2 ^ 8 * (a + b) + 2 ^ 16 * (a + b + c) + 2 ^ 24 * (a + b + c + d) + 2 ^ 32 * (a + b + c + d + e) +
            2 ^ 40 * (a + b + c + d + e + f) + 2 ^ 48 * (a + b + c + d + e + f + g) +
            2 ^ 56 * (a + b + c + d + e + f + g + h)) +
          2 ^ 64 * ((b + c + d + e + f + g + h) + 2 ^ 8 * (c + d + e + f + g + h) + 2 ^ 16 * (d + e + f + g + h) +
            2 ^ 24 * (e + f + g + h) + 2 ^ 32 * (f + g + h) + 2 ^ 40 * (g + h) + 2 ^ 48 * h) := by
        ring
      rw [product, Nat.add_mul_mod_self_left, Nat.mod_eq_of_lt (by omega)]
      omega

/-! ## Bits -/

/-- The low bits of a number, least significant first. -/
def bits (n v : Nat) : List Nat := (List.range n).map fun i => (v.testBit i).toNat

theorem bits_le (n v : Nat) : ∀ a ∈ bits n v, a ≤ 1 := by
  intro a member
  obtain ⟨i, -, rfl⟩ := List.mem_map.mp member
  exact Bool.toNat_le _

theorem length_bits (n v : Nat) : (bits n v).length = n := by
  rw [bits, List.length_map, List.length_range]

theorem ofDigits_bits (n v : Nat) : ofDigits 2 (bits n v) = v % 2 ^ n := by
  induction n with
  | zero => rw [Nat.pow_zero, Nat.mod_one]; rfl
  | succ n ih =>
      have split : bits (n + 1) v = bits n v ++ [(v.testBit n).toNat] := by
        rw [bits, List.range_succ, List.map_append, List.map_singleton]
        rfl
      rw [split, ofDigits_append, ofDigits_singleton, length_bits, ih, Nat.mod_pow_succ, Nat.toNat_testBit]

/-- The number of ones among the low bits. -/
theorem sum_bits (n v : Nat) : (bits n v).sum = Nat.count (fun i => v.testBit i) n := by
  induction n with
  | zero => rfl
  | succ n ih =>
      have split : bits (n + 1) v = bits n v ++ [(v.testBit n).toNat] := by
        rw [bits, List.range_succ, List.map_append, List.map_singleton]
        rfl
      rw [split, List.sum_append, ih, List.sum_singleton, Nat.count_succ]
      cases v.testBit n <;> rfl

end Lanes
