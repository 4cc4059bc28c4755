import Mathlib.Data.Nat.Bitwise
import Mathlib.Tactic.Common

/-!
# Bit strings

Numbers as fixed-width bit strings, least or most significant bit first, and
byte strings as the bit strings they pack.
-/

namespace BitString

abbrev Bits := List Bool

/-- Value of a bit string, least significant bit first. -/
def lsbValue : Bits → Nat
  | [] => 0
  | bit :: bits => bit.toNat + 2 * lsbValue bits

/-- Value of a bit string, most significant bit first. -/
def msbValue (bits : Bits) : Nat := lsbValue bits.reverse

/-- The low `width` bits of a number, least significant bit first. -/
def lsbBits : (width value : Nat) → Bits
  | 0, _ => []
  | width + 1, value => decide (value % 2 = 1) :: lsbBits width (value / 2)

/-- The low `width` bits of a number, most significant bit first. -/
def msbBits (width value : Nat) : Bits := (lsbBits width value).reverse

/-- The bits of a byte string, each byte least significant bit first. -/
def bytesBits (bytes : List UInt8) : Bits := bytes.flatMap fun byte => lsbBits 8 byte.toNat

/-! ## Fixed-width numbers -/

@[simp] theorem length_lsbBits (width value : Nat) : (lsbBits width value).length = width := by
  induction width generalizing value with
  | zero => rfl
  | succ width ih => simp [lsbBits, ih]

@[simp] theorem length_msbBits (width value : Nat) : (msbBits width value).length = width := by
  simp [msbBits]

theorem lsbValue_lt (bits : Bits) : lsbValue bits < 2 ^ bits.length := by
  induction bits with
  | nil => simp [lsbValue]
  | cons bit bits ih =>
      have small : bit.toNat < 2 := Bool.toNat_lt bit
      rw [lsbValue, List.length_cons, Nat.pow_succ]
      omega

theorem lsbValue_append (left right : Bits) :
    lsbValue (left ++ right) = lsbValue left + 2 ^ left.length * lsbValue right := by
  induction left with
  | nil => simp [lsbValue]
  | cons bit left ih =>
      rw [List.cons_append, lsbValue, lsbValue, ih, List.length_cons, Nat.pow_succ]
      have split : 2 ^ left.length * 2 * lsbValue right = 2 * (2 ^ left.length * lsbValue right) := by
        rw [Nat.mul_right_comm, Nat.mul_comm]
      omega

theorem lsbValue_lsbBits (width value : Nat) : lsbValue (lsbBits width value) = value % 2 ^ width := by
  induction width generalizing value with
  | zero => simp [lsbBits, lsbValue, Nat.mod_one]
  | succ width ih =>
      rw [lsbBits, lsbValue, ih, Nat.pow_succ, Nat.mul_comm (2 ^ width) 2, Nat.mod_mul]
      rcases Nat.mod_two_eq_zero_or_one value with low | low <;> simp [low]

theorem lsbBits_lsbValue (bits : Bits) : lsbBits bits.length (lsbValue bits) = bits := by
  induction bits with
  | nil => rfl
  | cons bit bits ih =>
      have small : bit.toNat < 2 := Bool.toNat_lt bit
      have high : (bit.toNat + 2 * lsbValue bits) / 2 = lsbValue bits := by omega
      rw [List.length_cons, lsbBits, lsbValue, high, ih, Nat.add_mul_mod_self_left]
      cases bit <;> simp

theorem lsbBits_add (low high value : Nat) :
    lsbBits (low + high) value = lsbBits low value ++ lsbBits high (value / 2 ^ low) := by
  induction low generalizing value with
  | zero => simp [lsbBits]
  | succ low ih =>
      rw [Nat.succ_add, lsbBits, lsbBits, ih, Nat.div_div_eq_div_mul, Nat.pow_succ,
        Nat.mul_comm (2 ^ low) 2]
      rfl

theorem lsbBits_mod (width value : Nat) : lsbBits width (value % 2 ^ width) = lsbBits width value := by
  have same := lsbBits_lsbValue (lsbBits width value)
  rwa [length_lsbBits, lsbValue_lsbBits] at same

/-- A number above the low bits of another. -/
theorem lsbBits_concat {low value : Nat} (high above : Nat) (fits : value < 2 ^ low) :
    lsbBits (low + high) (value + above * 2 ^ low) = lsbBits low value ++ lsbBits high above := by
  have positive : 0 < 2 ^ low := Nat.two_pow_pos low
  rw [lsbBits_add, ← lsbBits_mod low, Nat.add_mul_mod_self_right, lsbBits_mod,
    Nat.add_mul_div_right _ _ positive, Nat.div_eq_of_lt fits, Nat.zero_add]

theorem msbValue_lt (bits : Bits) : msbValue bits < 2 ^ bits.length := by
  simpa [msbValue] using lsbValue_lt bits.reverse

theorem msbValue_concat (bits : Bits) (bit : Bool) :
    msbValue (bits ++ [bit]) = 2 * msbValue bits + bit.toNat := by
  simp only [msbValue, List.reverse_append, List.reverse_singleton, List.singleton_append, lsbValue]
  omega

theorem msbValue_append (left right : Bits) :
    msbValue (left ++ right) = msbValue left * 2 ^ right.length + msbValue right := by
  rw [msbValue, List.reverse_append, lsbValue_append, List.length_reverse, Nat.add_comm,
    Nat.mul_comm]
  rfl

theorem msbValue_msbBits {width value : Nat} (fits : value < 2 ^ width) :
    msbValue (msbBits width value) = value := by
  rw [msbValue, msbBits, List.reverse_reverse, lsbValue_lsbBits, Nat.mod_eq_of_lt fits]

theorem msbBits_msbValue (bits : Bits) : msbBits bits.length (msbValue bits) = bits := by
  have same := lsbBits_lsbValue bits.reverse
  rw [List.length_reverse] at same
  rw [msbBits, msbValue, same, List.reverse_reverse]

/-! ## Byte strings -/

@[simp] theorem bytesBits_nil : bytesBits [] = [] := rfl

@[simp] theorem bytesBits_cons (byte : UInt8) (bytes : List UInt8) :
    bytesBits (byte :: bytes) = lsbBits 8 byte.toNat ++ bytesBits bytes := rfl

@[simp] theorem bytesBits_append (left right : List UInt8) :
    bytesBits (left ++ right) = bytesBits left ++ bytesBits right := List.flatMap_append

@[simp] theorem length_bytesBits (bytes : List UInt8) : (bytesBits bytes).length = 8 * bytes.length := by
  induction bytes with
  | nil => rfl
  | cons byte bytes ih =>
      rw [bytesBits_cons, List.length_append, length_lsbBits, ih, List.length_cons]
      omega

/-- Bytes are found where their bits are. -/
theorem bytesBits_eq_append {bytes data : List UInt8} {rest : Bits}
    (same : bytesBits bytes = bytesBits data ++ rest) :
    ∃ tail, bytes = data ++ tail ∧ rest = bytesBits tail := by
  induction data generalizing bytes with
  | nil => exact ⟨bytes, rfl, same.symm⟩
  | cons byte data ih =>
      cases bytes with
      | nil => simp [lsbBits] at same
      | cons other bytes =>
          rw [bytesBits_cons, bytesBits_cons, List.append_assoc] at same
          obtain ⟨first, others⟩ := List.append_inj same (by simp)
          obtain ⟨tail, rfl, isRest⟩ := ih others
          have value := congrArg lsbValue first
          rw [lsbValue_lsbBits, lsbValue_lsbBits, Nat.mod_eq_of_lt other.toNat_lt,
            Nat.mod_eq_of_lt byte.toNat_lt] at value
          exact ⟨tail, by rw [UInt8.toNat_inj.mp value]; rfl, isRest⟩

/-- A 16-bit number is two bytes, the low one first. -/
theorem lsbBits_sixteen (low high : UInt8) :
    lsbBits 16 (low.toNat + high.toNat * 2 ^ 8) = bytesBits [low, high] := by
  have small : low.toNat < 2 ^ 8 := low.toNat_lt
  rw [show (16 : Nat) = 8 + 8 from rfl, lsbBits_concat 8 high.toNat small]
  simp

theorem exists_bytes {value : Nat} (bound : value < 2 ^ 16) :
    ∃ low high : UInt8, value = low.toNat + high.toNat * 2 ^ 8 := by
  refine ⟨UInt8.ofNat (value % 256), UInt8.ofNat (value / 256), ?_⟩
  have size : UInt8.size = 256 := rfl
  rw [UInt8.toNat_ofNat_of_lt' (by omega), UInt8.toNat_ofNat_of_lt' (by omega)]
  omega

theorem or_shiftLeft_byte (low high : UInt8) :
    low.toNat ||| (high.toNat <<< 8) = low.toNat + high.toNat * 2 ^ 8 := by
  have small : low.toNat < 2 ^ 8 := low.toNat_lt
  rw [Nat.shiftLeft_eq, Nat.or_comm, Nat.mul_comm, ← Nat.two_pow_add_eq_or_of_lt small,
    Nat.add_comm]

/-- The one's complement. -/
theorem xor_ones {width value : Nat} (bound : value < 2 ^ width) :
    value ^^^ (2 ^ width - 1) = 2 ^ width - 1 - value := by
  have complement := congrArg BitVec.toNat (BitVec.xor_allOnes (x := BitVec.ofNat width value))
  rwa [BitVec.toNat_xor, BitVec.toNat_not, BitVec.toNat_allOnes, BitVec.toNat_ofNat,
    Nat.mod_eq_of_lt bound] at complement

end BitString
