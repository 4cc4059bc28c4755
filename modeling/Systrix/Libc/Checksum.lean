import Systrix.Lib.ReflectedCrc
import Mathlib.Algebra.GroupWithZero.Nat
import Mathlib.Logic.Function.Iterate

/-!
# CRC-32 and Adler-32

`slibc_crc32_update` divides a byte at a time by a table that is filled at the first call; `slibc_adler32_update` keeps
two sums in one word.  Both take up where a call before them stopped.
-/

namespace Systrix.Libc

open Systrix.Lib

/-! ## CRC-32 -/

/-- The reflected generator. -/
def crc32Poly : BitVec 32 := 0xEDB88320#32

/-- One step of the loop that fills the table. -/
def crc32TabStep (c : BitVec 32) : BitVec 32 := (c >>> 1) ^^^ (crc32Poly &&& -(c &&& 1#32))

/-- An entry of the table. -/
def crc32TabEntry (i : Nat) : BitVec 32 := crc32TabStep^[8] (BitVec.ofNat 32 i)

/-- What `_crc32_init` fills the table with. -/
def crc32Tab : List (BitVec 32) := (List.range 256).map crc32TabEntry

/-- `_crc32_tab` and `_crc32_ready`: the flag is only set once the table is filled. -/
structure Crc32Statics where
  tab : List (BitVec 32)
  ready : Bool
  filled : ready = true → tab = crc32Tab

/-- The statics when the program starts. -/
def Crc32Statics.start : Crc32Statics := ⟨List.replicate 256 0#32, false, nofun⟩

def crc32Init (statics : Crc32Statics) : Crc32Statics :=
  if statics.ready then statics else ⟨crc32Tab, true, fun _ => rfl⟩

/-- The loop body of `slibc_crc32_update`. -/
def crc32Byte (tab : List (BitVec 32)) (crc : BitVec 32) (p : UInt8) : BitVec 32 :=
  (crc >>> 8) ^^^ tab.getD ((crc ^^^ p.toBitVec.setWidth 32) &&& 0xFF#32).toNat 0#32

def slibcCrc32Update (statics : Crc32Statics) (crc : BitVec 32) (data : List UInt8) : BitVec 32 × Crc32Statics :=
  let statics := crc32Init statics
  (data.foldl (crc32Byte statics.tab) (crc ^^^ 0xFFFFFFFF#32) ^^^ 0xFFFFFFFF#32, statics)

def slibcCrc32 (statics : Crc32Statics) (data : List UInt8) : BitVec 32 × Crc32Statics :=
  slibcCrc32Update statics 0#32 data

/-! ## Adler-32 -/

/-- The loop body of `slibc_adler32_update`. -/
def adler32Byte (sums : BitVec 32 × BitVec 32) (p : UInt8) : BitVec 32 × BitVec 32 :=
  let s1 := (sums.1 + p.toBitVec.setWidth 32) % 65521#32
  (s1, (sums.2 + s1) % 65521#32)

def slibcAdler32Update (adler : BitVec 32) (data : List UInt8) : BitVec 32 :=
  let sums := data.foldl adler32Byte (adler &&& 0xFFFF#32, (adler >>> 16) &&& 0xFFFF#32)
  (sums.2 <<< 16) ||| sums.1

def slibcAdler32 (data : List UInt8) : BitVec 32 := slibcAdler32Update 1#32 data

/-! ## What they are for -/

/-- The bits of a byte, the least significant one first. -/
def byteBits (p : UInt8) : List Bool := (List.range 8).map p.toBitVec.getLsbD

/-- The bits of a message in the order in which they are divided. -/
def dataBits (data : List UInt8) : List Bool := data.flatMap byteBits

/-- The CRC-32 of a message, bit by bit. -/
def crc32Division (data : List UInt8) : BitVec 32 := ~~~feedBits crc32Poly (~~~0#32) (dataBits data)

/-- One more than the sum of the bytes. -/
def byteSum (data : List UInt8) : Nat := 1 + (data.map UInt8.toNat).sum

/-- The sum of the byte sums after each byte. -/
def prefixSum (data : List UInt8) : Nat := ((List.range data.length).map fun i => byteSum (data.take (i + 1))).sum

/-! ## The table -/

theorem crc32TabStep_eq : crc32TabStep = shiftStep crc32Poly := by
  funext c
  have low : c &&& 1#32 = if c.getLsbD 0 then 1#32 else 0#32 := by
    apply BitVec.eq_of_toNat_eq
    rw [BitVec.toNat_and, BitVec.getLsbD, Nat.testBit_zero]
    rcases Nat.mod_two_eq_zero_or_one c.toNat with even | odd
    · simp [even, Nat.and_one_is_mod]
    · simp [odd, Nat.and_one_is_mod]
  unfold crc32TabStep shiftStep
  rw [low]
  cases c.getLsbD 0
  · simp
  · simp only [if_true]
    rfl

theorem iterate_shiftStep {w : Nat} (poly c : BitVec w) (n : Nat) : (shiftStep poly)^[n] c = shiftSteps poly n c := by
  induction n generalizing c with
  | zero => rfl
  | succ n ih => rw [Function.iterate_succ_apply, ih, shiftSteps]

theorem crc32TabEntry_eq (i : Nat) : crc32TabEntry i = shiftSteps crc32Poly 8 (BitVec.ofNat 32 i) := by
  rw [crc32TabEntry, crc32TabStep_eq, iterate_shiftStep]

theorem crc32Tab_getD {i : Nat} (small : i < 256) : crc32Tab.getD i 0#32 = crc32TabEntry i := by
  simp [crc32Tab, List.getD_eq_getElem?_getD, small]

@[simp] theorem crc32Init_tab (statics : Crc32Statics) : (crc32Init statics).tab = crc32Tab := by
  unfold crc32Init
  split
  case isTrue ready => exact statics.filled ready
  case isFalse => rfl

/-- A byte by the table is the byte added to the register, and eight steps. -/
theorem crc32Byte_steps (crc : BitVec 32) (p : UInt8) :
    crc32Byte crc32Tab crc p = shiftSteps crc32Poly 8 (crc ^^^ p.toBitVec.setWidth 32) := by
  have gone : (p.toBitVec.setWidth 32) >>> 8 = 0#32 := by
    apply BitVec.eq_of_toNat_eq
    rw [BitVec.toNat_ushiftRight, BitVec.toNat_setWidth, Nat.shiftRight_eq_div_pow]
    have byte := p.toBitVec.isLt
    simp only [BitVec.toNat_ofNat]
    omega
  have small : ((crc ^^^ p.toBitVec.setWidth 32) &&& 0xFF#32).toNat < 256 := by
    rw [BitVec.toNat_and]
    exact lt_of_le_of_lt Nat.and_le_right (by decide)
  rw [crc32Byte, crc32Tab_getD small, crc32TabEntry_eq, BitVec.ofNat_toNat, BitVec.setWidth_eq,
    shiftSteps_split crc32Poly (crc ^^^ p.toBitVec.setWidth 32) 8, BitVec.ushiftRight_xor_distrib, gone, BitVec.xor_zero]
  rfl

theorem bitsValue_byteBits (p : UInt8) : bitsValue (byteBits p) = p.toBitVec.setWidth 32 := by
  apply BitVec.eq_of_getLsbD_eq
  intro i small
  rw [bitsValue_getLsbD, BitVec.getLsbD_setWidth, byteBits, List.getD_eq_getElem?_getD, List.getElem?_map]
  by_cases inside : i < 8
  · simp [small, inside]
  · simp [inside, BitVec.getLsbD_of_ge p.toBitVec i (by omega)]

theorem crc32Byte_bits (crc : BitVec 32) (p : UInt8) :
    crc32Byte crc32Tab crc p = feedBits crc32Poly crc (byteBits p) := by
  have eight : (byteBits p).length = 8 := by simp [byteBits]
  rw [crc32Byte_steps, feedBits_eq_shiftSteps crc32Poly crc (by omega), eight, bitsValue_byteBits]

theorem foldl_crc32Byte (crc : BitVec 32) (data : List UInt8) :
    data.foldl (crc32Byte crc32Tab) crc = feedBits crc32Poly crc (dataBits data) := by
  induction data generalizing crc with
  | nil => rfl
  | cons p rest ih =>
    have bits : dataBits (p :: rest) = byteBits p ++ dataBits rest := List.flatMap_cons
    rw [List.foldl_cons, ih, crc32Byte_bits, bits, feedBits, List.foldl_append]

theorem slibcCrc32Update_bits (statics : Crc32Statics) (crc : BitVec 32) (data : List UInt8) :
    (slibcCrc32Update statics crc data).1 = ~~~feedBits crc32Poly (~~~crc) (dataBits data) := by
  have flip : ∀ x : BitVec 32, x ^^^ 0xFFFFFFFF#32 = ~~~x := fun x => by
    rw [show (0xFFFFFFFF#32 : BitVec 32) = BitVec.allOnes 32 from rfl, BitVec.xor_allOnes]
  rw [slibcCrc32Update, crc32Init_tab, flip, flip, foldl_crc32Byte]

/-- The register after a call is the remainder of the message behind the register before the call. -/
theorem slibcCrc32Update_remainder (statics : Crc32Statics) (crc : BitVec 32) (data : List UInt8) :
    registerPoly (~~~(slibcCrc32Update statics crc data).1)
      = (Polynomial.X ^ 32 * messagePoly (dataBits data)
          + Polynomial.X ^ (dataBits data).length * registerPoly (~~~crc)) %ₘ generator crc32Poly := by
  rw [slibcCrc32Update_bits, BitVec.not_not]
  exact feedBits_remainder (by decide) crc32Poly (~~~crc) (dataBits data)

theorem dataBits_append (a b : List UInt8) : dataBits (a ++ b) = dataBits a ++ dataBits b := List.flatMap_append

/-! ## The sums -/

theorem adler32Byte_toNat (sums : BitVec 32 × BitVec 32) (p : UInt8)
    (first : sums.1.toNat < 2 ^ 16) (second : sums.2.toNat < 2 ^ 16) :
    (adler32Byte sums p).1.toNat = (sums.1.toNat + p.toNat) % 65521
      ∧ (adler32Byte sums p).2.toNat = (sums.2.toNat + (sums.1.toNat + p.toNat) % 65521) % 65521 := by
  have byte := p.toNat_lt
  have modulus : (65521#32).toNat = 65521 := rfl
  have one : (adler32Byte sums p).1.toNat = (sums.1.toNat + p.toNat) % 65521 := by
    simp only [adler32Byte, BitVec.toNat_umod, BitVec.toNat_add, BitVec.toNat_setWidth, modulus,
      UInt8.toNat_toBitVec]
    omega
  refine ⟨one, ?_⟩
  have two : (adler32Byte sums p).2 = (sums.2 + (adler32Byte sums p).1) % 65521#32 := rfl
  rw [two, BitVec.toNat_umod, BitVec.toNat_add, one, modulus]
  omega

/-- A word of two sums, taken apart. -/
def adler32Sums (adler : BitVec 32) : BitVec 32 × BitVec 32 := (adler &&& 0xFFFF#32, (adler >>> 16) &&& 0xFFFF#32)

/-- Two sums, put into one word. -/
def adler32Word (sums : BitVec 32 × BitVec 32) : BitVec 32 := (sums.2 <<< 16) ||| sums.1

theorem adler32Sums_toNat (adler : BitVec 32) :
    (adler32Sums adler).1.toNat = adler.toNat % 2 ^ 16 ∧ (adler32Sums adler).2.toNat = adler.toNat / 2 ^ 16 := by
  have mask : (0xFFFF#32).toNat = 2 ^ 16 - 1 := rfl
  have bound := adler.isLt
  constructor
  · rw [adler32Sums, BitVec.toNat_and, mask, Nat.and_two_pow_sub_one_eq_mod]
  · rw [adler32Sums, BitVec.toNat_and, mask, Nat.and_two_pow_sub_one_eq_mod, BitVec.toNat_ushiftRight,
      Nat.shiftRight_eq_div_pow]
    omega

theorem adler32Word_toNat (sums : BitVec 32 × BitVec 32) (first : sums.1.toNat < 2 ^ 16)
    (second : sums.2.toNat < 2 ^ 16) : (adler32Word sums).toNat = sums.2.toNat * 2 ^ 16 + sums.1.toNat := by
  have moved : (sums.2 <<< 16).toNat = sums.2.toNat <<< 16 := by
    rw [BitVec.toNat_shiftLeft, Nat.shiftLeft_eq]
    omega
  rw [adler32Word, BitVec.toNat_or, moved, ← Nat.shiftLeft_add_eq_or_of_lt first, Nat.shiftLeft_eq]

theorem adler32Sums_word {sums : BitVec 32 × BitVec 32} (first : sums.1.toNat < 2 ^ 16)
    (second : sums.2.toNat < 2 ^ 16) : adler32Sums (adler32Word sums) = sums := by
  have word := adler32Word_toNat sums first second
  obtain ⟨low, high⟩ := adler32Sums_toNat (adler32Word sums)
  apply Prod.ext
  · apply BitVec.eq_of_toNat_eq
    omega
  · apply BitVec.eq_of_toNat_eq
    omega

theorem adler32Sums_small (adler : BitVec 32) :
    (adler32Sums adler).1.toNat < 2 ^ 16 ∧ (adler32Sums adler).2.toNat < 2 ^ 16 := by
  obtain ⟨low, high⟩ := adler32Sums_toNat adler
  have bound := adler.isLt
  omega

theorem foldl_adler32Byte_small {sums : BitVec 32 × BitVec 32} (first : sums.1.toNat < 2 ^ 16)
    (second : sums.2.toNat < 2 ^ 16) (data : List UInt8) :
    (data.foldl adler32Byte sums).1.toNat < 2 ^ 16 ∧ (data.foldl adler32Byte sums).2.toNat < 2 ^ 16 := by
  induction data generalizing sums with
  | nil => exact ⟨first, second⟩
  | cons p rest ih =>
    obtain ⟨one, two⟩ := adler32Byte_toNat sums p first second
    exact ih (by omega) (by omega)

theorem slibcAdler32Update_append (adler : BitVec 32) (a b : List UInt8) :
    slibcAdler32Update (slibcAdler32Update adler a) b = slibcAdler32Update adler (a ++ b) := by
  obtain ⟨low, high⟩ := adler32Sums_small adler
  obtain ⟨first, second⟩ := foldl_adler32Byte_small low high a
  have resumed : adler32Sums (slibcAdler32Update adler a) = a.foldl adler32Byte (adler32Sums adler) :=
    adler32Sums_word first second
  show adler32Word (b.foldl adler32Byte (adler32Sums (slibcAdler32Update adler a)))
    = adler32Word ((a ++ b).foldl adler32Byte (adler32Sums adler))
  rw [resumed, List.foldl_append]

theorem byteSum_snoc (data : List UInt8) (p : UInt8) : byteSum (data ++ [p]) = byteSum data + p.toNat := by
  simp [byteSum, Nat.add_assoc]

theorem prefixSum_snoc (data : List UInt8) (p : UInt8) :
    prefixSum (data ++ [p]) = prefixSum data + byteSum (data ++ [p]) := by
  have earlier : ∀ i ∈ List.range data.length,
      byteSum ((data ++ [p]).take (i + 1)) = byteSum (data.take (i + 1)) := fun i inside => by
    rw [List.take_append_of_le_length (Nat.succ_le_of_lt (List.mem_range.mp inside))]
  have last : (data ++ [p]).take (data.length + 1) = data ++ [p] := List.take_of_length_le (by simp)
  rw [prefixSum, List.length_append, List.length_singleton, List.range_succ, List.map_append, List.sum_append,
    List.map_congr_left earlier, List.map_singleton, List.sum_singleton, last]
  rfl

theorem foldl_adler32Byte_sums (data : List UInt8) :
    (data.foldl adler32Byte (adler32Sums 1#32)).1.toNat = byteSum data % 65521
      ∧ (data.foldl adler32Byte (adler32Sums 1#32)).2.toNat = prefixSum data % 65521 := by
  induction data using List.reverseRecOn with
  | nil => exact ⟨rfl, rfl⟩
  | append_singleton data p ih =>
    obtain ⟨low, high⟩ := adler32Sums_small 1#32
    obtain ⟨first, second⟩ := foldl_adler32Byte_small low high data
    obtain ⟨one, two⟩ := adler32Byte_toNat (data.foldl adler32Byte (adler32Sums 1#32)) p first second
    rw [List.foldl_append, List.foldl_cons, List.foldl_nil, one, two, ih.1, ih.2, prefixSum_snoc, byteSum_snoc]
    omega

theorem slibcAdler32_toNat (data : List UInt8) :
    (slibcAdler32 data).toNat = prefixSum data % 65521 * 2 ^ 16 + byteSum data % 65521 := by
  obtain ⟨first, second⟩ := foldl_adler32Byte_sums data
  have value : (slibcAdler32 data).toNat = _ :=
    adler32Word_toNat (data.foldl adler32Byte (adler32Sums 1#32)) (by omega) (by omega)
  rw [value, first, second]

/-! ## The contract -/

/-- Both checks may be taken in parts, whatever other calls were made before or between, and they are the division and
the two sums. -/
theorem checksums_correct (statics later : Crc32Statics) (c : BitVec 32) (a b : List UInt8) :
    (slibcCrc32Update later (slibcCrc32Update statics c a).1 b).1 = (slibcCrc32Update statics c (a ++ b)).1
      ∧ slibcAdler32Update (slibcAdler32Update c a) b = slibcAdler32Update c (a ++ b)
      ∧ (slibcCrc32 statics a).1 = crc32Division a
      ∧ registerPoly (~~~(slibcCrc32 statics a).1)
          = (Polynomial.X ^ 32 * messagePoly (dataBits a)
              + Polynomial.X ^ (dataBits a).length * registerPoly (~~~0#32)) %ₘ generator crc32Poly
      ∧ (slibcAdler32 a).toNat = prefixSum a % 65521 * 2 ^ 16 + byteSum a % 65521 := by
  refine ⟨?_, slibcAdler32Update_append c a b, slibcCrc32Update_bits statics 0#32 a,
    slibcCrc32Update_remainder statics 0#32 a, slibcAdler32_toNat a⟩
  rw [slibcCrc32Update_bits, slibcCrc32Update_bits, slibcCrc32Update_bits, BitVec.not_not, dataBits_append, feedBits,
    List.foldl_append]

/-- The check of the nine digits. -/
example : slibcAdler32 [0x31, 0x32, 0x33, 0x34, 0x35, 0x36, 0x37, 0x38, 0x39] = 0x091E01DE#32 := by decide

end Systrix.Libc
