import Mathlib.Data.List.Range
import Mathlib.Logic.Function.Basic
import Mathlib.Tactic.IntervalCases

/-!
# AES-128

The block cipher of `user/tls.h`.
-/

namespace Systrix.Tls

/-- 16 bytes. -/
abbrev Block := Vector UInt8 16

/-- Byte by byte exclusive or. -/
def Block.xor (a b : Block) : Block := a.zipWith (· ^^^ ·) b

/-- `_sbox` -/
def sboxTable : Array UInt8 :=
  #[0x63, 0x7c, 0x77, 0x7b, 0xf2, 0x6b, 0x6f, 0xc5, 0x30, 0x01, 0x67, 0x2b, 0xfe, 0xd7, 0xab, 0x76,
    0xca, 0x82, 0xc9, 0x7d, 0xfa, 0x59, 0x47, 0xf0, 0xad, 0xd4, 0xa2, 0xaf, 0x9c, 0xa4, 0x72, 0xc0,
    0xb7, 0xfd, 0x93, 0x26, 0x36, 0x3f, 0xf7, 0xcc, 0x34, 0xa5, 0xe5, 0xf1, 0x71, 0xd8, 0x31, 0x15,
    0x04, 0xc7, 0x23, 0xc3, 0x18, 0x96, 0x05, 0x9a, 0x07, 0x12, 0x80, 0xe2, 0xeb, 0x27, 0xb2, 0x75,
    0x09, 0x83, 0x2c, 0x1a, 0x1b, 0x6e, 0x5a, 0xa0, 0x52, 0x3b, 0xd6, 0xb3, 0x29, 0xe3, 0x2f, 0x84,
    0x53, 0xd1, 0x00, 0xed, 0x20, 0xfc, 0xb1, 0x5b, 0x6a, 0xcb, 0xbe, 0x39, 0x4a, 0x4c, 0x58, 0xcf,
    0xd0, 0xef, 0xaa, 0xfb, 0x43, 0x4d, 0x33, 0x85, 0x45, 0xf9, 0x02, 0x7f, 0x50, 0x3c, 0x9f, 0xa8,
    0x51, 0xa3, 0x40, 0x8f, 0x92, 0x9d, 0x38, 0xf5, 0xbc, 0xb6, 0xda, 0x21, 0x10, 0xff, 0xf3, 0xd2,
    0xcd, 0x0c, 0x13, 0xec, 0x5f, 0x97, 0x44, 0x17, 0xc4, 0xa7, 0x7e, 0x3d, 0x64, 0x5d, 0x19, 0x73,
    0x60, 0x81, 0x4f, 0xdc, 0x22, 0x2a, 0x90, 0x88, 0x46, 0xee, 0xb8, 0x14, 0xde, 0x5e, 0x0b, 0xdb,
    0xe0, 0x32, 0x3a, 0x0a, 0x49, 0x06, 0x24, 0x5c, 0xc2, 0xd3, 0xac, 0x62, 0x91, 0x95, 0xe4, 0x79,
    0xe7, 0xc8, 0x37, 0x6d, 0x8d, 0xd5, 0x4e, 0xa9, 0x6c, 0x56, 0xf4, 0xea, 0x65, 0x7a, 0xae, 0x08,
    0xba, 0x78, 0x25, 0x2e, 0x1c, 0xa6, 0xb4, 0xc6, 0xe8, 0xdd, 0x74, 0x1f, 0x4b, 0xbd, 0x8b, 0x8a,
    0x70, 0x3e, 0xb5, 0x66, 0x48, 0x03, 0xf6, 0x0e, 0x61, 0x35, 0x57, 0xb9, 0x86, 0xc1, 0x1d, 0x9e,
    0xe1, 0xf8, 0x98, 0x11, 0x69, 0xd9, 0x8e, 0x94, 0x9b, 0x1e, 0x87, 0xe9, 0xce, 0x55, 0x28, 0xdf,
    0x8c, 0xa1, 0x89, 0x0d, 0xbf, 0xe6, 0x42, 0x68, 0x41, 0x99, 0x2d, 0x0f, 0xb0, 0x54, 0xbb, 0x16]

/-- An entry of `_sbox`. -/
def sbox (b : UInt8) : UInt8 := sboxTable.getD b.toNat 0

/-- An entry of `_rcon`. -/
def rcon (i : Nat) : UInt8 := #[0x00, 0x01, 0x02, 0x04, 0x08, 0x10, 0x20, 0x40, 0x80, 0x1b, 0x36].getD i 0

def xtime (a : UInt8) : UInt8 := (a <<< 1) ^^^ (if a >>> 7 ≠ 0 then 0x1b else 0)

def gmul (a b : UInt8) : UInt8 :=
  ((List.range 8).foldl (fun (r, a, b) _ => (if b &&& 1 ≠ 0 then r ^^^ a else r, xtime a, b >>> 1))
    ((0, a, b) : UInt8 × UInt8 × UInt8)).1

/-- `k->rk` -/
abbrev AesKey := Nat → Block

/-- Round key `i` from the one before; the bytes from 4 on use the ones just stored. -/
def nextRoundKey (i : Nat) (prev : Block) : Block :=
  let cur : Block := .replicate 16 0
  let cur := cur.set 0 (prev[0] ^^^ sbox prev[13] ^^^ rcon i)
  let cur := cur.set 1 (prev[1] ^^^ sbox prev[14])
  let cur := cur.set 2 (prev[2] ^^^ sbox prev[15])
  let cur := cur.set 3 (prev[3] ^^^ sbox prev[12])
  (List.finRange 12).foldl (fun cur (j : Fin 12) => cur.set (j.val + 4) (prev[j.val + 4] ^^^ cur[j.val])) cur

def aesKeyExpand (key : Block) : AesKey
  | 0 => key
  | i + 1 => nextRoundKey (i + 1) (aesKeyExpand key i)

/-- The swaps of ShiftRows. -/
def shiftRows (s : Block) : Block :=
  #v[s[0], s[5], s[10], s[15], s[4], s[9], s[14], s[3], s[8], s[13], s[2], s[7], s[12], s[1], s[6], s[11]]

/-- A column of MixColumns. -/
def mixColumn (s : Block) (c : Fin 4) : Block :=
  let a0 := s[4 * c.val]
  let a1 := s[4 * c.val + 1]
  let a2 := s[4 * c.val + 2]
  let a3 := s[4 * c.val + 3]
  let s := s.set (4 * c.val) (gmul 0x02 a0 ^^^ gmul 0x03 a1 ^^^ a2 ^^^ a3)
  let s := s.set (4 * c.val + 1) (a0 ^^^ gmul 0x02 a1 ^^^ gmul 0x03 a2 ^^^ a3)
  let s := s.set (4 * c.val + 2) (a0 ^^^ a1 ^^^ gmul 0x02 a2 ^^^ gmul 0x03 a3)
  s.set (4 * c.val + 3) (gmul 0x03 a0 ^^^ a1 ^^^ a2 ^^^ gmul 0x02 a3)

def aesRounds : Nat := 10

/-- A round of `aes_encrypt_block`; the last one has no MixColumns. -/
def aesRound (k : AesKey) (b : Block) (r : Nat) : Block :=
  let s := shiftRows (b.map sbox)
  let s := if r < aesRounds then (List.finRange 4).foldl mixColumn s else s
  s.xor (k r)

def aesEncryptBlock (k : AesKey) (b : Block) : Block :=
  (List.range' 1 aesRounds).foldl (aesRound k) (b.xor (k 0))

example : aesEncryptBlock
    (aesKeyExpand #v[0x00, 0x01, 0x02, 0x03, 0x04, 0x05, 0x06, 0x07, 0x08, 0x09, 0x0a, 0x0b, 0x0c, 0x0d, 0x0e, 0x0f])
    #v[0x00, 0x11, 0x22, 0x33, 0x44, 0x55, 0x66, 0x77, 0x88, 0x99, 0xaa, 0xbb, 0xcc, 0xdd, 0xee, 0xff] =
      #v[0x69, 0xc4, 0xe0, 0xd8, 0x6a, 0x7b, 0x04, 0x30, 0xd8, 0xcd, 0xb7, 0x80, 0x70, 0xb4, 0xc5, 0x5a] := by
  decide +kernel

end Systrix.Tls

/-!
## AES-128 encrypts blocks one to one

Every part of a round is injective: the substitution, the swap of rows, the mixing of a column, which is linear, and the
round key.
-/

namespace Systrix.Tls

open Function (Injective)

/-! ## Bytes -/

/-- A fact about bytes that holds of all numbers up to 255. -/
theorem forall_byte {p : UInt8 → Prop} (all : ∀ n < 256, p (UInt8.ofNat n)) (a : UInt8) : p a := by
  have here := all a.toNat a.toNat_lt
  rwa [UInt8.ofNat_toNat] at here

theorem xor_cancel (a b : UInt8) : a ^^^ (a ^^^ b) = b := by
  rw [← UInt8.xor_assoc, UInt8.xor_self, UInt8.zero_xor]

theorem xor_left_comm (a b c : UInt8) : a ^^^ (b ^^^ c) = b ^^^ (a ^^^ c) := by
  rw [← UInt8.xor_assoc, UInt8.xor_comm a b, UInt8.xor_assoc]

theorem top_cases (a : UInt8) : a >>> 7 = 0 ∨ a >>> 7 = 1 :=
  @forall_byte (fun a => a >>> 7 = 0 ∨ a >>> 7 = 1) (by decide +kernel) a

/-- `_xtime` is linear. -/
theorem xtime_xor (a b : UInt8) : xtime (a ^^^ b) = xtime a ^^^ xtime b := by
  unfold xtime
  rw [UInt8.shiftLeft_xor, UInt8.shiftRight_xor]
  rcases top_cases a with high | high <;> rcases top_cases b with high' | high' <;> rw [high, high'] <;>
    simp [UInt8.xor_assoc, UInt8.xor_comm, xor_left_comm]

theorem gmul_two (a : UInt8) : gmul 0x02 a = xtime a :=
  @forall_byte (fun a => gmul 0x02 a = xtime a) (by decide +kernel) a

theorem gmul_three (a : UInt8) : gmul 0x03 a = xtime a ^^^ a :=
  @forall_byte (fun a => gmul 0x03 a = xtime a ^^^ a) (by decide +kernel) a

theorem sbox_injective : Injective sbox := by
  have index := @forall_byte (fun a => sboxTable.toList.idxOf (sbox a) = a.toNat) (by decide +kernel)
  intro a b same
  apply UInt8.toNat_inj.mp
  rw [← index a, ← index b, same]

/-! ## Columns -/

/-- A column that is mixed to zero is zero. -/
theorem column_zero {d0 d1 d2 d3 : UInt8} (e0 : xtime d0 ^^^ (xtime d1 ^^^ (d1 ^^^ (d2 ^^^ d3))) = 0)
    (e1 : d0 ^^^ (xtime d1 ^^^ (xtime d2 ^^^ (d2 ^^^ d3))) = 0) (e2 : d0 ^^^ (d1 ^^^ (xtime d2 ^^^ (xtime d3 ^^^ d3))) = 0)
    (e3 : xtime d0 ^^^ (d0 ^^^ (d1 ^^^ (d2 ^^^ xtime d3))) = 0) : d0 = 0 ∧ d1 = 0 ∧ d2 = 0 ∧ d3 = 0 := by
  have sum : d0 ^^^ (d1 ^^^ (d2 ^^^ d3)) = 0 := by
    have all := congrArg₂ (· ^^^ ·) (congrArg₂ (· ^^^ ·) e0 e1) (congrArg₂ (· ^^^ ·) e2 e3)
    simpa [UInt8.xor_assoc, UInt8.xor_comm, xor_left_comm, xor_cancel] using all
  have doubled : xtime d0 ^^^ (xtime d1 ^^^ (xtime d2 ^^^ xtime d3)) = 0 := by
    rw [← xtime_xor, ← xtime_xor, ← xtime_xor, sum]
    decide
  have even : d0 = d2 := by
    have both := congrArg₂ (· ^^^ ·) (congrArg₂ (· ^^^ ·) e0 e2) doubled
    apply UInt8.xor_eq_zero_iff.mp
    simpa [UInt8.xor_assoc, UInt8.xor_comm, xor_left_comm, xor_cancel] using both
  have odd : d1 = d3 := by
    have both := congrArg₂ (· ^^^ ·) (congrArg₂ (· ^^^ ·) e1 e3) doubled
    apply UInt8.xor_eq_zero_iff.mp
    simpa [UInt8.xor_assoc, UInt8.xor_comm, xor_left_comm, xor_cancel] using both
  subst even odd
  have equal : d0 = d1 := by
    have both := congrArg₂ (· ^^^ ·) e0 e1
    apply UInt8.xor_eq_zero_iff.mp
    simpa [UInt8.xor_assoc, UInt8.xor_comm, xor_left_comm, xor_cancel] using both
  subst equal
  have zero : d0 = 0 := by
    simpa [xor_cancel] using e0
  exact ⟨zero, zero, zero, zero⟩

/-- A column that is mixed, as a function of its four bytes. -/
theorem column_injective {a0 a1 a2 a3 c0 c1 c2 c3 : UInt8}
    (e0 : gmul 0x02 a0 ^^^ gmul 0x03 a1 ^^^ a2 ^^^ a3 = gmul 0x02 c0 ^^^ gmul 0x03 c1 ^^^ c2 ^^^ c3)
    (e1 : a0 ^^^ gmul 0x02 a1 ^^^ gmul 0x03 a2 ^^^ a3 = c0 ^^^ gmul 0x02 c1 ^^^ gmul 0x03 c2 ^^^ c3)
    (e2 : a0 ^^^ a1 ^^^ gmul 0x02 a2 ^^^ gmul 0x03 a3 = c0 ^^^ c1 ^^^ gmul 0x02 c2 ^^^ gmul 0x03 c3)
    (e3 : gmul 0x03 a0 ^^^ a1 ^^^ a2 ^^^ gmul 0x02 a3 = gmul 0x03 c0 ^^^ c1 ^^^ c2 ^^^ gmul 0x02 c3) :
    a0 = c0 ∧ a1 = c1 ∧ a2 = c2 ∧ a3 = c3 := by
  rw [gmul_two, gmul_two, gmul_three, gmul_three, ← UInt8.xor_eq_zero_iff] at e0 e1 e2 e3
  have zero : a0 ^^^ c0 = 0 ∧ a1 ^^^ c1 = 0 ∧ a2 ^^^ c2 = 0 ∧ a3 ^^^ c3 = 0 := by
    apply column_zero <;> simp only [xtime_xor]
    · rw [← e0]
      simp only [UInt8.xor_assoc, UInt8.xor_comm, xor_left_comm]
    · rw [← e1]
      simp only [UInt8.xor_assoc, UInt8.xor_comm, xor_left_comm]
    · rw [← e2]
      simp only [UInt8.xor_assoc, UInt8.xor_comm, xor_left_comm]
    · rw [← e3]
      simp only [UInt8.xor_assoc, UInt8.xor_comm, xor_left_comm]
  obtain ⟨zero0, zero1, zero2, zero3⟩ := zero
  exact ⟨UInt8.xor_eq_zero_iff.mp zero0, UInt8.xor_eq_zero_iff.mp zero1, UInt8.xor_eq_zero_iff.mp zero2,
    UInt8.xor_eq_zero_iff.mp zero3⟩

/-! ## Rounds -/

theorem shiftRows_injective : Injective shiftRows := by
  have back : ∀ s : Block, shiftRows (shiftRows (shiftRows (shiftRows s))) = s := by
    intro s
    apply Vector.ext
    intro i inside
    interval_cases i <;> rfl
  intro s s' same
  rw [← back s, ← back s', same]

/-- The bytes outside of a column are kept. -/
theorem mixColumn_other (s : Block) (c : Fin 4) {i : Nat} (inside : i < 16) (other : i / 4 ≠ c.val) :
    (mixColumn s c)[i] = s[i] := by
  unfold mixColumn
  rw [Vector.getElem_set_ne _ _ (by omega), Vector.getElem_set_ne _ _ (by omega), Vector.getElem_set_ne _ _ (by omega),
    Vector.getElem_set_ne _ _ (by omega)]

theorem mixColumn_injective (c : Fin 4) : Injective fun s => mixColumn s c := by
  intro s s' same
  have bytes : ∀ i (inside : i < 16), (mixColumn s c)[i] = (mixColumn s' c)[i] := fun i inside =>
    congrArg (fun b : Block => b[i]) same
  have b0 := bytes (4 * c.val) (by omega)
  have b1 := bytes (4 * c.val + 1) (by omega)
  have b2 := bytes (4 * c.val + 2) (by omega)
  have b3 := bytes (4 * c.val + 3) (by omega)
  simp [mixColumn] at b0 b1 b2 b3
  obtain ⟨same0, same1, same2, same3⟩ := column_injective b0 b1 b2 b3
  apply Vector.ext
  intro i inside
  by_cases column : i / 4 = c.val
  · have place : i = 4 * c.val ∨ i = 4 * c.val + 1 ∨ i = 4 * c.val + 2 ∨ i = 4 * c.val + 3 := by omega
    rcases place with rfl | rfl | rfl | rfl
    · exact same0
    · exact same1
    · exact same2
    · exact same3
  · rw [← mixColumn_other s c inside column, ← mixColumn_other s' c inside column]
    exact bytes i inside

/-- A fold of injective steps is injective. -/
theorem foldl_injective {α β : Type} {step : α → β → α} (injective : ∀ b, Injective fun a => step a b) (l : List β) :
    Injective fun a => l.foldl step a := by
  induction l with
  | nil => exact fun _ _ same => same
  | cons b l ih => exact ih.comp (injective b)

theorem xor_block_injective (k : Block) : Injective fun b : Block => b.xor k := by
  intro b b' same
  apply Vector.ext
  intro i inside
  have byte := congrArg (fun s : Block => s[i]) same
  simp only [Block.xor, Vector.getElem_zipWith] at byte
  exact (UInt8.xor_left_inj _).mp byte

theorem map_sbox_injective : Injective fun b : Block => b.map sbox := by
  intro b b' same
  apply Vector.ext
  intro i inside
  have byte := congrArg (fun s : Block => s[i]) same
  simp only [Vector.getElem_map] at byte
  exact sbox_injective byte

theorem aesRound_injective (k : AesKey) (r : Nat) : Injective fun b => aesRound k b r := by
  have rows : Injective fun b : Block => shiftRows (b.map sbox) := shiftRows_injective.comp map_sbox_injective
  by_cases last : r < aesRounds
  · have columns := foldl_injective mixColumn_injective (List.finRange 4)
    have round : (fun b => aesRound k b r) =
        (fun s => s.xor (k r)) ∘ (fun s => (List.finRange 4).foldl mixColumn s) ∘ fun b => shiftRows (b.map sbox) := by
      funext b
      simp only [aesRound, if_pos last, Function.comp]
    rw [round]
    exact (xor_block_injective (k r)).comp (columns.comp rows)
  · have round : (fun b => aesRound k b r) = (fun s => s.xor (k r)) ∘ fun b => shiftRows (b.map sbox) := by
      funext b
      simp only [aesRound, if_neg last, Function.comp]
    rw [round]
    exact (xor_block_injective (k r)).comp rows

/-- No two blocks are encrypted to the same one. -/
theorem aesEncryptBlock_injective (k : AesKey) : Injective (aesEncryptBlock k) := by
  intro b b' same
  unfold aesEncryptBlock at same
  have rounds := foldl_injective (aesRound_injective k) (List.range' 1 aesRounds)
  exact xor_block_injective (k 0) (@rounds (b.xor (k 0)) (b'.xor (k 0)) same)

end Systrix.Tls
