import Mathlib.Data.Nat.Bitwise
import Mathlib.Tactic.Common

/-!
# Unsigned machine arithmetic

Fixed-width C arithmetic on natural numbers: results are reduced explicitly
where the width can matter, and the reductions disappear under a bound.
-/

namespace Machine

/-- Value of an expression of type `u64`. -/
def u64 (value : Nat) : Nat := value % 2 ^ 64

/-- Value of an expression of type `u32`. -/
def u32 (value : Nat) : Nat := value % 2 ^ 32

/-- Unsigned 64-bit subtraction. -/
def sub64 (left right : Nat) : Nat := (left + (2 ^ 64 - right % 2 ^ 64)) % 2 ^ 64

/-- Unsigned 32-bit subtraction. -/
@[irreducible] def sub32 (left right : Nat) : Nat := (left + (2 ^ 32 - right % 2 ^ 32)) % 2 ^ 32

/-- `value & ~(unit - 1)` for a power of two `unit`. -/
def alignDown (value unit : Nat) : Nat := value / unit * unit

theorem u64_lt (value : Nat) : u64 value < 2 ^ 64 := Nat.mod_lt _ (by decide)

theorem u32_lt (value : Nat) : u32 value < 2 ^ 32 := Nat.mod_lt _ (by decide)

/-- Only the last reduction counts. -/
theorem u32_add (left right : Nat) : u32 (u32 left + right) = u32 (left + right) :=
  Nat.mod_add_mod left (2 ^ 32) right

theorem u64_of_lt {value : Nat} (bound : value < 2 ^ 64) : u64 value = value :=
  Nat.mod_eq_of_lt bound

theorem u32_of_lt {value : Nat} (bound : value < 2 ^ 32) : u32 value = value :=
  Nat.mod_eq_of_lt bound

theorem sub64_of_le {left right : Nat} (ordered : right ≤ left) (bound : left < 2 ^ 64) :
    sub64 left right = left - right := by
  unfold sub64
  omega

theorem sub32_of_le {left right : Nat} (ordered : right ≤ left) (bound : left < 2 ^ 32) :
    sub32 left right = left - right := by
  unfold sub32
  omega

theorem alignDown_le (value unit : Nat) : alignDown value unit ≤ value :=
  Nat.div_mul_le_self value unit

end Machine
