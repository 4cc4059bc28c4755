import Mathlib.Data.Nat.Bitwise
import Mathlib.Logic.Function.Basic
import Mathlib.Tactic.Common

/-!
# Byte-addressed memory

A memory is a total function from addresses to bytes.  Loads and stores are
little endian and work at any width; every fact about them is a consequence of
which bytes they touch.
-/

namespace ByteMemory

abbrev Memory := Nat → UInt8

/-- Little-endian value of the `width` bytes starting at `address`. -/
def load (memory : Memory) (address : Nat) : (width : Nat) → Nat
  | 0 => 0
  | width + 1 => (memory address).toNat + 256 * load memory (address + 1) width

/-- Write the low `width` bytes of `value`, least significant byte first. -/
def store (memory : Memory) (address : Nat) : (width value : Nat) → Memory
  | 0, _ => memory
  | width + 1, value =>
      store (Function.update memory address (UInt8.ofNat value)) (address + 1) width
        (value / 256)

/-- Set `length` bytes to one value. -/
def fill (memory : Memory) (address length : Nat) (byte : UInt8) : Memory :=
  fun query => if address ≤ query ∧ query < address + length then byte else memory query

/-- Copy `length` bytes; the source is read before anything is written. -/
def copy (memory : Memory) (target source length : Nat) : Memory :=
  fun query =>
    if target ≤ query ∧ query < target + length then memory (source + (query - target))
    else memory query

/-- The `length` bytes from `address` on. -/
def slice (memory : Memory) (address length : Nat) : List UInt8 :=
  (List.range length).map fun offset => memory (address + offset)

/-- Put the first `length` bytes of another memory at `target`. -/
def paste (memory : Memory) (target length : Nat) (source : Memory) : Memory :=
  fun query => if target ≤ query ∧ query < target + length then source (query - target) else memory query

/-- The address ranges `[low, high)` and `[low', high')` do not meet. -/
def Apart (low high low' high' : Nat) : Prop := high ≤ low' ∨ high' ≤ low

/-- Two memories hold the same bytes on `[low, high)`. -/
def SameOn (left right : Memory) (low high : Nat) : Prop :=
  ∀ address, low ≤ address → address < high → left address = right address

/-- Two memories hold the same bytes outside `[low, high)`. -/
def SameOutside (left right : Memory) (low high : Nat) : Prop :=
  ∀ address, address < low ∨ high ≤ address → left address = right address

namespace SameOn

theorem refl (memory : Memory) (low high : Nat) : SameOn memory memory low high := fun _ _ _ => rfl

theorem trans {first second third : Memory} {low high : Nat} (left : SameOn first second low high)
    (right : SameOn second third low high) : SameOn first third low high :=
  fun address lower upper => (left address lower upper).trans (right address lower upper)

/-- Part of an unchanged region. -/
theorem mono {left right : Memory} {low high low' high' : Nat} (same : SameOn left right low high) (below : low ≤ low')
    (above : high' ≤ high) : SameOn left right low' high' :=
  fun address lower upper => same address (Nat.le_trans below lower) (Nat.lt_of_lt_of_le upper above)

end SameOn

namespace SameOutside

theorem refl (memory : Memory) (low high : Nat) : SameOutside memory memory low high :=
  fun _ _ => rfl

theorem trans {first second third : Memory} {low high : Nat}
    (left : SameOutside first second low high) (right : SameOutside second third low high) :
    SameOutside first third low high :=
  fun address outside => (left address outside).trans (right address outside)

theorem mono {left right : Memory} {low high low' high' : Nat}
    (same : SameOutside left right low high) (below : low' ≤ low) (above : high ≤ high') :
    SameOutside left right low' high' := by
  intro address outside
  apply same
  omega

/-- A region apart from the changed one is unchanged. -/
theorem sameOn {left right : Memory} {low high low' high' : Nat}
    (same : SameOutside left right low high) (apart : high' ≤ low ∨ high ≤ low') :
    SameOn left right low' high' := by
  intro address lower upper
  apply same
  omega

end SameOutside

theorem load_congr {left right : Memory} {address width : Nat}
    (same : SameOn left right address (address + width)) :
    load left address width = load right address width := by
  induction width generalizing address with
  | zero => rfl
  | succ width ih =>
      simp only [load]
      rw [same address (Nat.le_refl _) (by omega)]
      rw [ih (fun query lower upper => same query (by omega) (by omega))]

theorem load_lt (memory : Memory) (address width : Nat) :
    load memory address width < 256 ^ width := by
  induction width generalizing address with
  | zero => simp [load]
  | succ width ih =>
      have tail := ih (address + 1)
      have head := (memory address).toNat_lt
      simp only [load, Nat.pow_succ]
      omega

theorem store_apply_outside (memory : Memory) {address width query : Nat} (value : Nat)
    (outside : query < address ∨ address + width ≤ query) :
    store memory address width value query = memory query := by
  induction width generalizing memory address value with
  | zero => rfl
  | succ width ih =>
      simp only [store]
      rw [ih _ _ (by omega)]
      exact Function.update_of_ne (by omega) _ _

theorem store_sameOutside (memory : Memory) (address width value : Nat) :
    SameOutside (store memory address width value) memory address (address + width) :=
  fun _ outside => store_apply_outside memory value outside

theorem load_store_self (memory : Memory) (address width value : Nat) :
    load (store memory address width value) address width = value % 256 ^ width := by
  induction width generalizing memory address value with
  | zero => simp [load, Nat.mod_one]
  | succ width ih =>
      simp only [load, store, ih]
      rw [store_apply_outside _ _ (by omega), Function.update_self]
      have byte : (UInt8.ofNat value).toNat = value % 256 := UInt8.toNat_ofNat'
      rw [byte, Nat.pow_succ, Nat.mul_comm (256 ^ width) 256, Nat.mod_mul]

/-- A value that fits the width is read back exactly. -/
theorem load_store_of_lt (memory : Memory) (address : Nat) {width value : Nat}
    (fits : value < 256 ^ width) :
    load (store memory address width value) address width = value := by
  rw [load_store_self, Nat.mod_eq_of_lt fits]

theorem load_store_of_apart (memory : Memory) {address width target width' : Nat} (value : Nat)
    (apart : address + width ≤ target ∨ target + width' ≤ address) :
    load (store memory target width' value) address width = load memory address width :=
  load_congr ((store_sameOutside memory target width' value).sameOn apart)

theorem fill_sameOutside (memory : Memory) (address length : Nat) (byte : UInt8) :
    SameOutside (fill memory address length byte) memory address (address + length) := by
  intro query outside
  simp only [fill]
  rw [if_neg (by omega)]

theorem fill_apply (memory : Memory) {address length query : Nat} (byte : UInt8)
    (inside : address ≤ query ∧ query < address + length) :
    fill memory address length byte query = byte := by
  simp [fill, inside]

theorem load_fill_zero (memory : Memory) {address length query width : Nat}
    (inside : address ≤ query ∧ query + width ≤ address + length) :
    load (fill memory address length 0) query width = 0 := by
  induction width generalizing query with
  | zero => rfl
  | succ width ih =>
      simp only [load]
      rw [fill_apply memory 0 (by omega), ih (by omega)]
      rfl

theorem copy_sameOutside (memory : Memory) (target source length : Nat) :
    SameOutside (copy memory target source length) memory target (target + length) := by
  intro query outside
  simp only [copy]
  rw [if_neg (by omega)]

theorem copy_apply (memory : Memory) {target source length offset : Nat}
    (inside : offset < length) :
    copy memory target source length (target + offset) = memory (source + offset) := by
  simp only [copy]
  rw [if_pos (by omega), Nat.add_sub_cancel_left]

@[simp] theorem length_slice (memory : Memory) (address length : Nat) :
    (slice memory address length).length = length := by
  rw [slice, List.length_map, List.length_range]

theorem slice_congr {left right : Memory} {address length : Nat}
    (same : SameOn left right address (address + length)) :
    slice left address length = slice right address length := by
  apply List.map_congr_left
  intro offset mem
  have inside := List.mem_range.mp mem
  exact same _ (Nat.le_add_right _ _) (Nat.add_lt_add_left inside _)

theorem slice_add (memory : Memory) (address length more : Nat) :
    slice memory address (length + more) =
      slice memory address length ++ slice memory (address + length) more := by
  rw [slice, List.range_add, List.map_append, List.map_map]
  congr 1
  apply List.map_congr_left
  intro offset _
  exact congrArg memory (Nat.add_assoc address length offset).symm

theorem paste_sameOutside (memory : Memory) (target length : Nat) (source : Memory) :
    SameOutside (paste memory target length source) memory target (target + length) := by
  intro query outside
  exact if_neg (by omega)

theorem slice_paste_self (memory : Memory) (target length : Nat) (source : Memory) :
    slice (paste memory target length source) target length = slice source 0 length := by
  apply List.map_congr_left
  intro offset mem
  have inside := List.mem_range.mp mem
  rw [paste, if_pos (by omega), Nat.add_sub_cancel_left, Nat.zero_add]

end ByteMemory

/-!
## Bit tables

Flags kept as the bits of an array of 32-bit words in a byte memory.
-/

namespace BitTable

open ByteMemory

variable (memory : Memory) (base idx : Nat)

/-- The word of the array that holds a flag. -/
def word : BitVec 32 := BitVec.ofNat 32 (load memory (base + 4 * (idx / 32)) 4)

/-- Assign to the word that holds a flag. -/
def setWord (value : BitVec 32) : Memory := store memory (base + 4 * (idx / 32)) 4 value.toNat

/-- `words[idx / 32] & (1 << (idx % 32))` -/
def bit : Bool := (word memory base idx).getLsbD (idx % 32)

/-- `words[idx / 32] |= 1 << (idx % 32)` -/
def set : Memory := setWord memory base idx (word memory base idx ||| BitVec.twoPow 32 (idx % 32))

/-- `words[idx / 32] &= ~(1 << (idx % 32))` -/
def clear : Memory := setWord memory base idx (word memory base idx &&& ~~~ BitVec.twoPow 32 (idx % 32))

variable {memory base idx}

theorem bit_congr {left right : Memory}
    (same : SameOn left right (base + 4 * (idx / 32)) (base + 4 * (idx / 32) + 4)) :
    bit left base idx = bit right base idx := by
  unfold bit word
  rw [load_congr same]

theorem bit_setWord {other : Nat} (same : other / 32 = idx / 32) (value : BitVec 32) :
    bit (setWord memory base idx value) base other = value.getLsbD (other % 32) := by
  unfold bit word setWord
  rw [same, load_store_of_lt memory _ value.isLt, BitVec.ofNat_toNat, BitVec.setWidth_eq]

theorem bit_setWord_of_ne {other : Nat} (ne : other / 32 ≠ idx / 32) (value : BitVec 32) :
    bit (setWord memory base idx value) base other = bit memory base other := by
  unfold bit word setWord
  rw [load_store_of_apart]
  omega

theorem bit_set_self : bit (set memory base idx) base idx = true := by
  have inside : idx % 32 < 32 := Nat.mod_lt _ (by decide)
  rw [set, bit_setWord rfl, BitVec.getLsbD_or, BitVec.getLsbD_twoPow]
  simp [inside]

theorem bit_set_of_ne {other : Nat} (ne : other ≠ idx) :
    bit (set memory base idx) base other = bit memory base other := by
  by_cases same : other / 32 = idx / 32
  · have place : idx % 32 ≠ other % 32 := by omega
    rw [set, bit_setWord same, BitVec.getLsbD_or, BitVec.getLsbD_twoPow]
    simp [place, bit, word, same]
  · exact bit_setWord_of_ne same _

theorem bit_clear_of_ne {other : Nat} (ne : other ≠ idx) :
    bit (clear memory base idx) base other = bit memory base other := by
  by_cases same : other / 32 = idx / 32
  · have inside : other % 32 < 32 := Nat.mod_lt _ (by decide)
    have place : idx % 32 ≠ other % 32 := by omega
    rw [clear, bit_setWord same, BitVec.getLsbD_and, BitVec.getLsbD_not, BitVec.getLsbD_twoPow]
    simp [place, inside, bit, word, same]
  · exact bit_setWord_of_ne same _

end BitTable
