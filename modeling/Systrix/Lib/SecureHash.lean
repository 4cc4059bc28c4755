import Mathlib.Data.Nat.Bitwise
import Mathlib.Data.Nat.Find
import Systrix.Lib.BlockFold

/-!
# The secure hash algorithm with 256 bits

SHA-256 as its standard defines it: the message is padded to whole blocks of 64 bytes, which are compressed one after
the other.  The constants are not listed but defined, by the fractions of the roots of the first prime numbers.
-/

namespace SecureHash

abbrev Word := BitVec 32

/-! ## The constants -/

/-- The first 64 prime numbers. -/
def primes : List Nat := (List.range' 2 310).filter fun p => (List.range' 2 (p - 2)).all fun d => p % d ≠ 0

/-- The largest number whose power is at most `n`. -/
def root (e n : Nat) : Nat := Nat.findGreatest (fun r => r ^ e ≤ n) n

/-- The first 32 bits of the fractional part of a root of a prime number. -/
def fraction (e p : Nat) : Word := BitVec.ofNat 32 (root e (p * 2 ^ (32 * e)))

/-- The constant of a round comes from a cube root. -/
def roundConstant (t : Nat) : Word := fraction 3 (primes.getD t 0)

/-- The words of the state. -/
structure State where
  a : Word
  b : Word
  c : Word
  d : Word
  e : Word
  f : Word
  g : Word
  h : Word
  deriving DecidableEq

/-- The first state comes from square roots. -/
def initial : State :=
  ⟨fraction 2 2, fraction 2 3, fraction 2 5, fraction 2 7, fraction 2 11, fraction 2 13, fraction 2 17, fraction 2 19⟩

/-! ## The compression of a block -/

def choose (x y z : Word) : Word := (x &&& y) ^^^ (~~~x &&& z)

def majority (x y z : Word) : Word := (x &&& y) ^^^ (x &&& z) ^^^ (y &&& z)

def bigSigma0 (x : Word) : Word := x.rotateRight 2 ^^^ x.rotateRight 13 ^^^ x.rotateRight 22

def bigSigma1 (x : Word) : Word := x.rotateRight 6 ^^^ x.rotateRight 11 ^^^ x.rotateRight 25

def smallSigma0 (x : Word) : Word := x.rotateRight 7 ^^^ x.rotateRight 18 ^^^ (x >>> 3)

def smallSigma1 (x : Word) : Word := x.rotateRight 17 ^^^ x.rotateRight 19 ^^^ (x >>> 10)

/-- Word `i` of a block, the first byte being the highest. -/
def blockWord (bytes : List UInt8) (i : Nat) : Word :=
  (bytes.getD (4 * i) 0).toBitVec ++ (bytes.getD (4 * i + 1) 0).toBitVec ++ (bytes.getD (4 * i + 2) 0).toBitVec ++
    (bytes.getD (4 * i + 3) 0).toBitVec

/-- The message schedule. -/
def schedule (bytes : List UInt8) (t : Nat) : Word :=
  if t < 16 then blockWord bytes t
  else smallSigma1 (schedule bytes (t - 2)) + schedule bytes (t - 7) + smallSigma0 (schedule bytes (t - 15)) +
    schedule bytes (t - 16)
termination_by t

def round (w : Nat → Word) (s : State) (t : Nat) : State :=
  let t1 := s.h + bigSigma1 s.e + choose s.e s.f s.g + roundConstant t + w t
  let t2 := bigSigma0 s.a + majority s.a s.b s.c
  ⟨t1 + t2, s.a, s.b, s.c, s.d + t1, s.e, s.f, s.g⟩

/-- The words of two states are added. -/
def State.add (s v : State) : State :=
  ⟨s.a + v.a, s.b + v.b, s.c + v.c, s.d + v.d, s.e + v.e, s.f + v.f, s.g + v.g, s.h + v.h⟩

def compress (s : State) (bytes : List UInt8) : State :=
  s.add ((List.range 64).foldl (round (schedule bytes)) s)

/-! ## The digest of a message -/

/-- The `width` bytes of a number, the first one being the highest. -/
def bigEndianBytes (width n : Nat) : List UInt8 :=
  (List.range width).map fun i => UInt8.ofNat (n / 256 ^ (width - 1 - i))

/-- How many zeros it takes to have eight bytes left in the last block. -/
def zeros (length : Nat) : Nat := (119 - length % 64) % 64

/-- The padded message: a one, zeros, and the number of bits. -/
def pad (message : List UInt8) : List UInt8 :=
  message ++ 0x80 :: List.replicate (zeros message.length) 0 ++ bigEndianBytes 8 (8 * message.length)

/-- The bytes of the words of a state. -/
def State.bytes (s : State) : List UInt8 :=
  [s.a, s.b, s.c, s.d, s.e, s.f, s.g, s.h].flatMap fun x => bigEndianBytes 4 x.toNat

/-- The digest of a message. -/
def sha256 (message : List UInt8) : List UInt8 :=
  (BlockFold.foldBlocks compress 64 initial (pad message) ((pad message).length / 64)).bytes

/-! ## Facts -/

theorem root_eq {e n r : Nat} (real : e ≠ 0) (low : r ^ e ≤ n) (high : n < (r + 1) ^ e) : root e n = r := by
  have inside : r ≤ n := (Nat.le_self_pow real r).trans low
  refine Nat.findGreatest_eq_iff.mpr ⟨inside, fun _ => low, fun m above _ small => ?_⟩
  exact absurd (high.trans_le (Nat.pow_le_pow_left above e)) (Nat.not_lt.mpr small)

/-- The fraction is known from the root, whose integer part is small here. -/
theorem fraction_eq {e p : Nat} {x : Word} (real : e ≠ 0)
    (near : ∃ i < 32, (i * 2 ^ 32 + x.toNat) ^ e ≤ p * 2 ^ (32 * e) ∧
      p * 2 ^ (32 * e) < (i * 2 ^ 32 + x.toNat + 1) ^ e) : fraction e p = x := by
  obtain ⟨i, -, low, high⟩ := near
  rw [fraction, root_eq real low high]
  refine BitVec.eq_of_toNat_eq ?_
  rw [BitVec.toNat_ofNat, Nat.mul_add_mod_of_lt x.isLt]

theorem zeros_lt (length : Nat) : zeros length < 64 := Nat.mod_lt _ (by decide)

/-- The message and its end are whole blocks. -/
theorem length_pad (message : List UInt8) :
    (pad message).length = message.length + 1 + zeros message.length + 8 := by
  simp only [pad, bigEndianBytes, List.length_append, List.length_cons, List.length_replicate, List.length_map,
    List.length_range]
  ac_rfl

theorem zeros_spec (length : Nat) : (length + 1 + zeros length) % 64 = 56 := by
  rw [zeros]
  omega

theorem pad_whole (message : List UInt8) : (pad message).length = 64 * ((pad message).length / 64) := by
  have full := zeros_spec message.length
  have size := length_pad message
  omega

theorem bigEndianBytes_succ (width n : Nat) :
    bigEndianBytes (width + 1) n = UInt8.ofNat (n / 256 ^ width) :: bigEndianBytes width n := by
  rw [bigEndianBytes, List.range_succ_eq_map, List.map_cons, List.map_map]
  refine congrArg₂ List.cons rfl (List.map_congr_left fun i _ => ?_)
  rw [Function.comp_apply, Nat.add_sub_cancel, Nat.succ_eq_add_one, Nat.sub_sub, Nat.add_comm 1 i]

/-- The first words of the schedule are those of the block. -/
theorem schedule_input {bytes : List UInt8} {t : Nat} (early : t < 16) : schedule bytes t = blockWord bytes t := by
  rw [schedule, if_pos early]

theorem schedule_recurrence {bytes : List UInt8} {t : Nat} (late : 16 ≤ t) :
    schedule bytes t = smallSigma1 (schedule bytes (t - 2)) + schedule bytes (t - 7) +
      smallSigma0 (schedule bytes (t - 15)) + schedule bytes (t - 16) := by
  rw [schedule, if_neg (Nat.not_lt.mpr late)]

end SecureHash
