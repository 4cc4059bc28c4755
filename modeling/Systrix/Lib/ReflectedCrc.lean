import Mathlib.Algebra.Polynomial.Div
import Mathlib.Algebra.CharP.Two
import Mathlib.Algebra.Field.ZMod

/-!
# Reflected cyclic redundancy checks

The register of a check that reads the least significant bit of every byte first.  One step shifts the register down
and subtracts the generator if a one left it.  A step is linear, so any number of steps of a register is the steps of
its low bits plus the rest of it, shifted down; and the register after a message is the remainder of a polynomial.
-/

namespace Systrix.Lib

variable {w : Nat}

/-- One step of the register: a shift, and the generator if the bit that left was a one. -/
def shiftStep (poly c : BitVec w) : BitVec w := if c.getLsbD 0 then (c >>> 1) ^^^ poly else c >>> 1

/-- `n` steps of the register. -/
def shiftSteps (poly : BitVec w) : Nat → BitVec w → BitVec w
  | 0, c => c
  | n + 1, c => shiftSteps poly n (shiftStep poly c)

/-- One bit of the message: it is added to the bit that leaves the register. -/
def feedBit (poly c : BitVec w) (bit : Bool) : BitVec w := shiftStep poly (c ^^^ BitVec.ofNat w bit.toNat)

/-- The division of a message, bit by bit. -/
def feedBits (poly : BitVec w) : BitVec w → List Bool → BitVec w := List.foldl (feedBit poly)

/-! ## Linearity -/

theorem xor_middle (a b p : BitVec w) : (a ^^^ p) ^^^ (b ^^^ p) = a ^^^ b := by
  rw [BitVec.xor_assoc, BitVec.xor_comm b p, ← BitVec.xor_assoc p, BitVec.xor_self, BitVec.zero_xor]

theorem shiftStep_xor (poly a b : BitVec w) : shiftStep poly (a ^^^ b) = shiftStep poly a ^^^ shiftStep poly b := by
  unfold shiftStep
  rw [BitVec.getLsbD_xor, BitVec.ushiftRight_xor_distrib]
  cases a.getLsbD 0 <;> cases b.getLsbD 0
  · rfl
  · exact BitVec.xor_assoc _ _ _
  · simp only [Bool.xor_false, if_true, Bool.false_eq_true, if_false]
    rw [BitVec.xor_assoc, BitVec.xor_comm (b >>> 1), BitVec.xor_assoc]
  · exact (xor_middle _ _ _).symm

theorem shiftSteps_xor (poly : BitVec w) (n : Nat) (a b : BitVec w) :
    shiftSteps poly n (a ^^^ b) = shiftSteps poly n a ^^^ shiftSteps poly n b := by
  induction n generalizing a b with
  | zero => rfl
  | succ n ih => rw [shiftSteps, shiftSteps, shiftSteps, shiftStep_xor, ih]

theorem toNat_shiftLeft_of_lt {c : BitVec w} {n : Nat} (fits : c.toNat * 2 ^ n < 2 ^ w) :
    (c <<< n).toNat = c.toNat * 2 ^ n := by
  rw [BitVec.toNat_shiftLeft, Nat.shiftLeft_eq, Nat.mod_eq_of_lt fits]

/-- A zero leaves the register without the generator. -/
theorem shiftStep_shiftLeft (poly : BitVec w) {c : BitVec w} {n : Nat} (fits : c.toNat * 2 ^ (n + 1) < 2 ^ w) :
    shiftStep poly (c <<< (n + 1)) = c <<< n := by
  have twice : c.toNat * 2 ^ (n + 1) = 2 * (c.toNat * 2 ^ n) := by rw [Nat.pow_succ]; ring
  have clear : (c <<< (n + 1)).getLsbD 0 = false := by simp
  rw [shiftStep, clear]
  apply BitVec.eq_of_toNat_eq
  simp only [Bool.false_eq_true, if_false]
  rw [BitVec.toNat_ushiftRight, toNat_shiftLeft_of_lt fits, toNat_shiftLeft_of_lt (by omega), twice,
    Nat.shiftRight_eq_div_pow, Nat.pow_one, Nat.mul_div_cancel_left _ (by decide)]

theorem shiftSteps_shiftLeft (poly : BitVec w) {c : BitVec w} {n : Nat} (fits : c.toNat * 2 ^ n < 2 ^ w) :
    shiftSteps poly n (c <<< n) = c := by
  induction n with
  | zero => simp [shiftSteps]
  | succ n ih =>
    have twice : c.toNat * 2 ^ (n + 1) = 2 * (c.toNat * 2 ^ n) := by rw [Nat.pow_succ]; ring
    rw [shiftSteps, shiftStep_shiftLeft poly fits, ih (by omega)]

/-- A register is its low bits and the rest of it. -/
theorem low_xor_high (x : BitVec w) (n : Nat) : x = (x &&& BitVec.ofNat w (2 ^ n - 1)) ^^^ ((x >>> n) <<< n) := by
  apply BitVec.eq_of_getLsbD_eq
  intro i small
  simp only [BitVec.getLsbD_xor, BitVec.getLsbD_and, BitVec.getLsbD_ofNat, BitVec.getLsbD_shiftLeft,
    BitVec.getLsbD_ushiftRight, Nat.testBit_two_pow_sub_one, small, decide_true, Bool.true_and]
  by_cases low : i < n
  · simp [low]
  · have back : n + (i - n) = i := by omega
    simp [low, back]

/-- The steps of a register are those of its low bits, and the rest of it, shifted down. -/
theorem shiftSteps_split (poly x : BitVec w) (n : Nat) :
    shiftSteps poly n x = (x >>> n) ^^^ shiftSteps poly n (x &&& BitVec.ofNat w (2 ^ n - 1)) := by
  have fits : (x >>> n).toNat * 2 ^ n < 2 ^ w := by
    rw [BitVec.toNat_ushiftRight, Nat.shiftRight_eq_div_pow]
    exact lt_of_le_of_lt (Nat.div_mul_le_self _ _) x.isLt
  calc shiftSteps poly n x
      = shiftSteps poly n ((x &&& BitVec.ofNat w (2 ^ n - 1)) ^^^ ((x >>> n) <<< n)) := by rw [← low_xor_high]
    _ = shiftSteps poly n (x &&& BitVec.ofNat w (2 ^ n - 1)) ^^^ (x >>> n) := by
        rw [shiftSteps_xor, shiftSteps_shiftLeft poly fits]
    _ = _ := BitVec.xor_comm _ _

/-! ## Steps and bits -/

/-- The register that holds a list of bits, the first one lowest. -/
def bitsValue : List Bool → BitVec w
  | [] => 0#w
  | bit :: rest => BitVec.ofNat w bit.toNat ^^^ (bitsValue rest <<< 1)

theorem bitsValue_getLsbD (bits : List Bool) (i : Nat) :
    (bitsValue bits : BitVec w).getLsbD i = (decide (i < w) && bits.getD i false) := by
  induction bits generalizing i with
  | nil => simp [bitsValue]
  | cons bit rest ih =>
    rw [bitsValue, BitVec.getLsbD_xor, BitVec.getLsbD_shiftLeft, BitVec.getLsbD_ofNat]
    cases i with
    | zero => cases bit <;> simp
    | succ i =>
      have above : (bit.toNat).testBit (i + 1) = false := by cases bit <;> simp [Nat.testBit_succ]
      rw [above, Nat.add_sub_cancel, ih]
      by_cases inside : i + 1 < w
      · have less : i < w := Nat.lt_of_succ_lt inside
        simp [inside, less]
      · simp [inside]

theorem bitsValue_lt {bits : List Bool} (short : bits.length ≤ w) :
    (bitsValue bits : BitVec w).toNat < 2 ^ bits.length := by
  induction bits with
  | nil => simp [bitsValue]
  | cons bit rest ih =>
    have tail := ih (Nat.le_of_succ_le short)
    have width : 2 ^ rest.length * 2 ≤ 2 ^ w := by
      rw [← Nat.pow_succ]
      exact Nat.pow_le_pow_right (by decide) short
    have moved : (bitsValue rest <<< 1 : BitVec w).toNat = (bitsValue rest : BitVec w).toNat * 2 ^ 1 :=
      toNat_shiftLeft_of_lt (by omega)
    rw [bitsValue, BitVec.toNat_xor, List.length_cons]
    apply Nat.xor_lt_two_pow
    · rw [BitVec.toNat_ofNat]
      exact lt_of_le_of_lt (Nat.mod_le _ _) (lt_of_lt_of_le (Bool.toNat_lt bit) (by
        rw [Nat.pow_succ]
        have := Nat.two_pow_pos rest.length
        omega))
    · rw [moved, Nat.pow_succ]
      omega

/-- A bit after the other is as good as all of them at once, as long as they fit the register. -/
theorem feedBits_eq_shiftSteps (poly c : BitVec w) {bits : List Bool} (short : bits.length ≤ w) :
    feedBits poly c bits = shiftSteps poly bits.length (c ^^^ bitsValue bits) := by
  induction bits generalizing c with
  | nil => simp [feedBits, shiftSteps, bitsValue]
  | cons bit rest ih =>
    have tail := bitsValue_lt (Nat.le_of_succ_le short)
    have width : 2 ^ rest.length * 2 ≤ 2 ^ w := by
      rw [← Nat.pow_succ]
      exact Nat.pow_le_pow_right (by decide) short
    have one := shiftStep_shiftLeft poly (n := 0) (c := bitsValue rest) (by omega)
    rw [BitVec.shiftLeft_zero] at one
    calc feedBits poly c (bit :: rest)
        = feedBits poly (feedBit poly c bit) rest := rfl
      _ = shiftSteps poly rest.length (feedBit poly c bit ^^^ bitsValue rest) := ih _ (Nat.le_of_succ_le short)
      _ = shiftSteps poly (rest.length + 1) (c ^^^ bitsValue (bit :: rest)) := by
          rw [shiftSteps, bitsValue, ← BitVec.xor_assoc, shiftStep_xor, one]
          rfl

/-! ## The remainder -/

open Polynomial

/-- The polynomial of a register: its lowest bit has the highest degree. -/
noncomputable def registerPoly (c : BitVec w) : (ZMod 2)[X] :=
  ∑ i ∈ Finset.range w, if c.getLsbD i then X ^ (w - 1 - i) else 0

/-- The generator, whose highest coefficient the register leaves out. -/
noncomputable def generator (poly : BitVec w) : (ZMod 2)[X] := X ^ w + registerPoly poly

/-- The polynomial of a message, whose first bit has the highest degree. -/
noncomputable def messagePoly (bits : List Bool) : (ZMod 2)[X] :=
  bits.foldl (fun p bit => X * p + if bit then 1 else 0) 0

theorem registerPoly_xor (a b : BitVec w) : registerPoly (a ^^^ b) = registerPoly a + registerPoly b := by
  unfold registerPoly
  rw [← Finset.sum_add_distrib]
  apply Finset.sum_congr rfl
  intro i _
  rw [BitVec.getLsbD_xor]
  cases a.getLsbD i <;> cases b.getLsbD i <;> simp [CharTwo.add_self_eq_zero]

theorem registerPoly_degree (c : BitVec w) : (registerPoly c).degree < w := by
  unfold registerPoly
  apply lt_of_le_of_lt (Polynomial.degree_sum_le _ _)
  refine (Finset.sup_lt_iff (WithBot.bot_lt_coe w)).mpr fun i small => ?_
  have inside := Finset.mem_range.mp small
  split
  · rw [Polynomial.degree_X_pow]
    exact WithBot.coe_lt_coe.mpr (show w - 1 - i < w by omega)
  · rw [Polynomial.degree_zero]
    exact WithBot.bot_lt_coe w

/-- A step multiplies the polynomial, and takes the generator off if the highest degree is reached. -/
theorem registerPoly_shiftStep (poly c : BitVec w) :
    X * registerPoly c = registerPoly (shiftStep poly c) + if c.getLsbD 0 then generator poly else 0 := by
  have shifted : X * registerPoly c = registerPoly (c >>> 1) + if c.getLsbD 0 then X ^ w else 0 := by
    unfold registerPoly
    cases w with
    | zero => simp [BitVec.eq_nil c]
    | succ n =>
      rw [Finset.sum_range_succ', Finset.sum_range_succ, mul_add, Finset.mul_sum]
      simp only [BitVec.getLsbD_ushiftRight]
      congr 1
      · rw [BitVec.getLsbD_of_ge c (1 + n) (by omega)]
        simp only [Bool.false_eq_true, if_false, add_zero]
        apply Finset.sum_congr rfl
        intro i small
        have inside := Finset.mem_range.mp small
        rw [Nat.add_comm 1 i, mul_ite, mul_zero, ← pow_succ']
        congr 2
        omega
      · rw [mul_ite, mul_zero, ← pow_succ']
        rfl
  rw [shifted, shiftStep]
  cases c.getLsbD 0
  · simp
  · simp only [if_true]
    rw [registerPoly_xor, generator, add_add_add_comm, CharTwo.add_self_eq_zero, add_zero, add_comm]

theorem registerPoly_bit (wide : 0 < w) (bit : Bool) :
    registerPoly (BitVec.ofNat w bit.toNat) = if bit then X ^ (w - 1) else 0 := by
  cases bit with
  | false => simp [registerPoly]
  | true =>
    unfold registerPoly
    rw [Finset.sum_eq_single 0]
    · simp [wide]
    · intro i small other
      have clear : Nat.testBit 1 i = false := by
        cases i with
        | zero => exact absurd rfl other
        | succ i => simp [Nat.testBit_succ]
      simp [BitVec.getLsbD_ofNat, clear]
    · intro outside
      exact absurd (Finset.mem_range.mpr wide) outside

theorem feedBit_poly (wide : 0 < w) (poly c : BitVec w) (bit : Bool) :
    ∃ q, X * registerPoly c + (X ^ w * if bit then 1 else 0) = q * generator poly + registerPoly (feedBit poly c bit) := by
  have step := registerPoly_shiftStep poly (c ^^^ BitVec.ofNat w bit.toNat)
  have power : (X : (ZMod 2)[X]) * X ^ (w - 1) = X ^ w := by
    rw [← pow_succ', Nat.sub_add_cancel wide]
  rw [registerPoly_xor, registerPoly_bit wide, mul_add, mul_ite, mul_zero, power] at step
  refine ⟨if (c ^^^ BitVec.ofNat w bit.toNat).getLsbD 0 then 1 else 0, ?_⟩
  rw [mul_ite, mul_one, mul_zero, step, feedBit, ite_mul, one_mul, zero_mul, add_comm]

theorem feedBits_poly (wide : 0 < w) (poly c : BitVec w) (bits : List Bool) :
    ∃ q, X ^ w * messagePoly bits + X ^ bits.length * registerPoly c
      = q * generator poly + registerPoly (feedBits poly c bits) := by
  induction bits using List.reverseRecOn with
  | nil => exact ⟨0, by simp [messagePoly, feedBits]⟩
  | append_singleton bits bit ih =>
    obtain ⟨q, before⟩ := ih
    obtain ⟨q', last⟩ := feedBit_poly wide poly (feedBits poly c bits) bit
    have message : messagePoly (bits ++ [bit]) = X * messagePoly bits + if bit then 1 else 0 := by
      rw [messagePoly, List.foldl_append]
      rfl
    have fed : feedBits poly c (bits ++ [bit]) = feedBit poly (feedBits poly c bits) bit := by
      rw [feedBits, List.foldl_append]
      rfl
    refine ⟨X * q + q', ?_⟩
    rw [message, fed, List.length_append, List.length_singleton]
    calc X ^ w * (X * messagePoly bits + if bit then 1 else 0) + X ^ (bits.length + 1) * registerPoly c
        = X * (X ^ w * messagePoly bits + X ^ bits.length * registerPoly c)
            + X ^ w * if bit then 1 else 0 := by ring
      _ = X * q * generator poly + (X * registerPoly (feedBits poly c bits) + X ^ w * if bit then 1 else 0) := by
          rw [before]
          ring
      _ = _ := by
          rw [last]
          ring

/-- The register after a message is the remainder of the message, with the register as it was in front. -/
theorem feedBits_remainder (wide : 0 < w) (poly c : BitVec w) (bits : List Bool) :
    registerPoly (feedBits poly c bits)
      = (X ^ w * messagePoly bits + X ^ bits.length * registerPoly c) %ₘ generator poly := by
  obtain ⟨q, whole⟩ := feedBits_poly wide poly c bits
  have monic : (generator poly).Monic := Polynomial.monic_X_pow_add (registerPoly_degree poly)
  have degree : (generator poly).degree = w := by
    rw [generator, add_comm]
    exact Polynomial.degree_add_eq_right_of_degree_lt (by
      rw [Polynomial.degree_X_pow]
      exact registerPoly_degree poly) |>.trans (Polynomial.degree_X_pow w)
  have unique := Polynomial.div_modByMonic_unique (f := X ^ w * messagePoly bits + X ^ bits.length * registerPoly c) q
    (registerPoly (feedBits poly c bits)) monic ⟨by rw [whole]; ring, degree ▸ registerPoly_degree _⟩
  exact unique.2.symm

end Systrix.Lib
