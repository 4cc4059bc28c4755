import Mathlib.Data.Nat.Size
import Systrix.Lib.Digits

/-!
# DER

The encoding of lengths, of values with their tag, and of integers that are not negative.
-/

namespace Der

open Digits

/-- The bytes that a number needs. -/
def byteCount (x : Nat) : Nat := (x.size + 7) / 8

/-- A length, in one byte or with the number of its bytes in front. -/
def lengthBytes (k : Nat) : List UInt8 :=
  if k < 128 then [UInt8.ofNat k] else UInt8.ofNat (128 + byteCount k) :: toBytes (byteCount k) k

/-- A value with its tag and its length. -/
def tlv (tag : UInt8) (body : List UInt8) : List UInt8 := tag :: (lengthBytes body.length ++ body)

/-- The contents of an integer: its bytes, with a bit for the sign. -/
def intBytes (x : Nat) : List UInt8 := toBytes (x.size / 8 + 1) x

variable {x : Nat}

theorem pow_256 (k : Nat) : 256 ^ k = 2 ^ (8 * k) := (pow_mul 2 8 k).symm

theorem lt_byteCount (x : Nat) : x < 256 ^ byteCount x := by
  rw [pow_256, ← Nat.size_le, byteCount]
  omega

theorem byteCount_le {width : Nat} (fits : x < 256 ^ width) : byteCount x ≤ width := by
  rw [pow_256, ← Nat.size_le] at fits
  rw [byteCount]
  omega

theorem length_tlv (tag : UInt8) (body : List UInt8) :
    (tlv tag body).length = 1 + (lengthBytes body.length).length + body.length := by
  rw [tlv, List.length_cons, List.length_append]
  omega

theorem ofBytes_intBytes (x : Nat) : ofBytes (intBytes x) = x := by
  refine ofBytes_toBytes ?_
  rw [pow_256, ← Nat.size_le]
  omega

theorem length_intBytes (x : Nat) : (intBytes x).length = x.size / 8 + 1 := length_toBytes _ _

/-- The top byte and the rest. -/
theorem intBytes_eq (x : Nat) : intBytes x = UInt8.ofNat (digit x (x.size / 8)) :: toBytes (x.size / 8) x := by
  rw [intBytes, toBytes, List.range_succ_eq_map, List.map_cons, List.map_map, toBytes]
  refine congrArg (_ :: ·) (List.map_congr_left fun i _ => ?_)
  exact congrArg (fun k => UInt8.ofNat (digit x k)) (by rw [Nat.add_sub_cancel, Nat.sub_sub, Nat.add_comm 1 i])

/-- How an integer of a width is bounded. -/
theorem length_intBytes_le {width : Nat} (some : 0 < width) : (intBytes x).length ≤ width ↔ x < 2 ^ (8 * width - 1) := by
  rw [length_intBytes, ← Nat.size_le]
  omega

end Der
