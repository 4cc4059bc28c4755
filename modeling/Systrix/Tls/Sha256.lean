import Mathlib.Data.List.Basic
import Systrix.Lib.ByteMemory
import Systrix.Lib.SecureHash

/-!
# SHA-256

`sha256_init`, `sha256_update` and `sha256_final` of `user/tls.h`.
-/

namespace Systrix.Tls

open ByteMemory

def k256 : Array UInt32 :=
  #[0x428a2f98, 0x71374491, 0xb5c0fbcf, 0xe9b5dba5, 0x3956c25b, 0x59f111f1, 0x923f82a4, 0xab1c5ed5,
    0xd807aa98, 0x12835b01, 0x243185be, 0x550c7dc3, 0x72be5d74, 0x80deb1fe, 0x9bdc06a7, 0xc19bf174,
    0xe49b69c1, 0xefbe4786, 0x0fc19dc6, 0x240ca1cc, 0x2de92c6f, 0x4a7484aa, 0x5cb0a9dc, 0x76f988da,
    0x983e5152, 0xa831c66d, 0xb00327c8, 0xbf597fc7, 0xc6e00bf3, 0xd5a79147, 0x06ca6351, 0x14292967,
    0x27b70a85, 0x2e1b2138, 0x4d2c6dfc, 0x53380d13, 0x650a7354, 0x766a0abb, 0x81c2c92e, 0x92722c85,
    0xa2bfe8a1, 0xa81a664b, 0xc24b8b70, 0xc76c51a3, 0xd192e819, 0xd6990624, 0xf40e3585, 0x106aa070,
    0x19a4c116, 0x1e376c08, 0x2748774c, 0x34b0bcb5, 0x391c0cb3, 0x4ed8aa4a, 0x5b9cca4f, 0x682e6ff3,
    0x748f82ee, 0x78a5636f, 0x84c87814, 0x8cc70208, 0x90befffa, 0xa4506ceb, 0xbef9a3f7, 0xc67178f2]

/-- The eight words of the state, and the variables `a` to `h`. -/
structure Words where
  a : UInt32
  b : UInt32
  c : UInt32
  d : UInt32
  e : UInt32
  f : UInt32
  g : UInt32
  h : UInt32
  deriving DecidableEq

/-- `Sha256`; of `buf` the first 64 bytes count. -/
structure Sha256 where
  h : Words
  buf : Memory
  blen : UInt32
  total : UInt64

/-- `sha256_init`, which leaves `buf` as it is. -/
def sha256Init (buf : Memory) : Sha256 where
  h := ⟨0x6a09e667, 0xbb67ae85, 0x3c6ef372, 0xa54ff53a, 0x510e527f, 0x9b05688c, 0x1f83d9ab, 0x5be0cd19⟩
  buf := buf
  blen := 0
  total := 0

def ror32 (x n : UInt32) : UInt32 := (x >>> n) ||| (x <<< (32 - n))

def ch (e f g : UInt32) : UInt32 := (e &&& f) ^^^ (~~~e &&& g)

def maj (a b c : UInt32) : UInt32 := (a &&& b) ^^^ (a &&& c) ^^^ (b &&& c)

def ep0 (a : UInt32) : UInt32 := ror32 a 2 ^^^ ror32 a 13 ^^^ ror32 a 22

def ep1 (e : UInt32) : UInt32 := ror32 e 6 ^^^ ror32 e 11 ^^^ ror32 e 25

def sig0 (x : UInt32) : UInt32 := ror32 x 7 ^^^ ror32 x 18 ^^^ (x >>> 3)

def sig1 (x : UInt32) : UInt32 := ror32 x 17 ^^^ ror32 x 19 ^^^ (x >>> 10)

/-- `((u32)data[i*4]<<24)|((u32)data[i*4+1]<<16)|((u32)data[i*4+2]<<8)|data[i*4+3]` -/
def wordOf (data : Memory) (i : Nat) : UInt32 :=
  ((data (i * 4)).toUInt32 <<< 24) ||| ((data (i * 4 + 1)).toUInt32 <<< 16) ||| ((data (i * 4 + 2)).toUInt32 <<< 8) |||
    (data (i * 4 + 3)).toUInt32

/-- An entry of `w` behind the first sixteen. -/
def nextWord (w : Array UInt32) (i : Nat) : UInt32 :=
  sig1 (w.getD (i - 2) 0) + w.getD (i - 7) 0 + sig0 (w.getD (i - 15) 0) + w.getD (i - 16) 0

/-- The two loops that fill `w`. -/
def schedule (data : Memory) : Array UInt32 :=
  let w := (List.range' 0 16).foldl (fun w i => w.setIfInBounds i (wordOf data i)) (Array.replicate 64 0)
  (List.range' 16 48).foldl (fun w i => w.setIfInBounds i (nextWord w i)) w

/-- A turn of the loop over the 64 rounds. -/
def sha256Round (w : Array UInt32) (v : Words) (i : Nat) : Words :=
  let t1 := v.h + ep1 v.e + ch v.e v.f v.g + k256.getD i 0 + w.getD i 0
  let t2 := ep0 v.a + maj v.a v.b v.c
  ⟨t1 + t2, v.a, v.b, v.c, v.d + t1, v.e, v.f, v.g⟩

/-- `_sha256_block`: the state after it. -/
def sha256Block (h : Words) (data : Memory) : Words :=
  let v := (List.range 64).foldl (sha256Round (schedule data)) h
  ⟨h.a + v.a, h.b + v.b, h.c + v.c, h.d + v.d, h.e + v.e, h.f + v.f, h.g + v.g, h.h + v.h⟩

/-- `take`: how many of the bytes fit into the buffer. -/
def takeSize (blen : UInt32) (data : List UInt8) : UInt32 :=
  let space := 64 - blen
  let len := UInt32.ofNat data.length
  if len < space then len else space

/-- The state after a turn of the loop of `sha256_update`. -/
def updateTurn (s : Sha256) (data : List UInt8) : Sha256 :=
  let take := takeSize s.blen data
  let buf := paste s.buf s.blen.toNat take.toNat fun i => data.getD i 0
  let blen := s.blen + take
  if blen = 64 then { s with h := sha256Block s.h buf, buf := buf, blen := 0 } else { s with buf := buf, blen := blen }

/-- The loop of `sha256_update`; each turn takes at least one byte. -/
def updateLoop (s : Sha256) (data : List UInt8) : (turns : Nat) → Sha256
  | 0 => s
  | turns + 1 =>
      if data.length = 0 then s
      else updateLoop (updateTurn s data) (data.drop (takeSize s.blen data).toNat) turns

/-- `sha256_update`; a piece has fewer than 2^32 bytes. -/
def sha256Update (s : Sha256) (data : List UInt8) : Sha256 :=
  updateLoop { s with total := s.total + UInt64.ofNat data.length } data data.length

/-- `while (s->blen != 56) { u8 z=0; sha256_update(s,&z,1); }` -/
def padLoop : (fuel : Nat) → Sha256 → Option Sha256
  | 0, _ => none
  | fuel + 1, s => if s.blen = 56 then some s else padLoop fuel (sha256Update s [0])

/-- The bytes of a word, the first one being the highest. -/
def wordBytes (x : UInt32) : List UInt8 :=
  [(x >>> 24).toUInt8, (x >>> 16).toUInt8, (x >>> 8).toUInt8, x.toUInt8]

/-- A turn of the loop that fills `lb`: the bytes that are filled, and the bits that are left. -/
def lengthTurn (p : List UInt8 × UInt64) : List UInt8 × UInt64 := (p.2.toUInt8 :: p.1, p.2 >>> 8)

/-- The bytes of `lb`, which is filled from the last one on. -/
def lengthBytes (bits : UInt64) : List UInt8 := ((List.range 8).foldl (fun p _ => lengthTurn p) ([], bits)).1

/-- The bytes of `digest`. -/
def digestBytes (h : Words) : List UInt8 := [h.a, h.b, h.c, h.d, h.e, h.f, h.g, h.h].flatMap wordBytes

/-- `sha256_final`, which fills up the last block with at most `fuel` zeros. -/
def sha256Final (fuel : Nat) (s : Sha256) : Option (List UInt8) := do
  let bits := s.total * 8
  let s ← padLoop fuel (sha256Update s [0x80])
  return digestBytes (sha256Update s (lengthBytes bits)).h

end Systrix.Tls

/-!
## The digest of a message that comes in pieces

`_sha256_block` compresses a block as the standard says, and `sha256_update` consumes the bytes block by block however
they are cut into pieces.
-/

namespace Systrix.Tls

open ByteMemory BlockFold

/-! ## One block -/

/-- The words of the standard. -/
def Words.state (v : Words) : SecureHash.State :=
  ⟨v.a.toBitVec, v.b.toBitVec, v.c.toBitVec, v.d.toBitVec, v.e.toBitVec, v.f.toBitVec, v.g.toBitVec, v.h.toBitVec⟩

theorem ror32_eq {n : UInt32} (positive : 0 < n.toNat) (small : n.toNat < 32) (x : UInt32) :
    (ror32 x n).toBitVec = x.toBitVec.rotateRight n.toNat := by
  have back : (32 - n).toNat = 32 - n.toNat :=
    UInt32.toNat_sub_of_le _ _ (UInt32.le_iff_toNat_le.mpr (Nat.le_of_lt small))
  have right : (n.toBitVec % 32).toNat = n.toNat := by
    rw [BitVec.toNat_umod]
    exact Nat.mod_eq_of_lt small
  have left : ((32 - n).toBitVec % 32).toNat = 32 - n.toNat := by
    rw [BitVec.toNat_umod, UInt32.toNat_toBitVec, back]
    exact Nat.mod_eq_of_lt (Nat.sub_lt (by decide) positive)
  rw [ror32, UInt32.toBitVec_or, UInt32.toBitVec_shiftRight, UInt32.toBitVec_shiftLeft, BitVec.rotateRight_def,
    Nat.mod_eq_of_lt small, BitVec.ushiftRight_eq', BitVec.shiftLeft_eq', right, left]

theorem ep0_eq (x : UInt32) : (ep0 x).toBitVec = SecureHash.bigSigma0 x.toBitVec := by
  rw [ep0, UInt32.toBitVec_xor, UInt32.toBitVec_xor, ror32_eq (by decide) (by decide), ror32_eq (by decide) (by decide),
    ror32_eq (by decide) (by decide)]
  rfl

theorem ep1_eq (x : UInt32) : (ep1 x).toBitVec = SecureHash.bigSigma1 x.toBitVec := by
  rw [ep1, UInt32.toBitVec_xor, UInt32.toBitVec_xor, ror32_eq (by decide) (by decide), ror32_eq (by decide) (by decide),
    ror32_eq (by decide) (by decide)]
  rfl

theorem sig0_eq (x : UInt32) : (sig0 x).toBitVec = SecureHash.smallSigma0 x.toBitVec := by
  rw [sig0, UInt32.toBitVec_xor, UInt32.toBitVec_xor, ror32_eq (by decide) (by decide),
    ror32_eq (by decide) (by decide)]
  rfl

theorem sig1_eq (x : UInt32) : (sig1 x).toBitVec = SecureHash.smallSigma1 x.toBitVec := by
  rw [sig1, UInt32.toBitVec_xor, UInt32.toBitVec_xor, ror32_eq (by decide) (by decide),
    ror32_eq (by decide) (by decide)]
  rfl

/-- Shifting the bytes to their places puts them next to each other. -/
theorem wordOf_eq (data : Memory) (i : Nat) :
    (wordOf data i).toBitVec = (data (i * 4)).toBitVec ++ (data (i * 4 + 1)).toBitVec ++ (data (i * 4 + 2)).toBitVec ++
      (data (i * 4 + 3)).toBitVec := by
  have wide : ∀ (x : UInt8) (n : UInt32),
      (x.toUInt32 <<< n).toBitVec = x.toBitVec.setWidth 32 <<< (n.toNat % 32) := fun _ _ => rfl
  have last : ∀ x : UInt8, x.toUInt32.toBitVec = x.toBitVec.setWidth 32 := fun _ => rfl
  rw [wordOf, UInt32.toBitVec_or, UInt32.toBitVec_or, UInt32.toBitVec_or, wide, wide, wide, last]
  generalize (data (i * 4)).toBitVec = first
  generalize (data (i * 4 + 1)).toBitVec = second
  generalize (data (i * 4 + 2)).toBitVec = third
  generalize (data (i * 4 + 3)).toBitVec = fourth
  apply BitVec.eq_of_getLsbD_eq
  intro j inside
  simp
  grind

/-- The constants are listed as the standard defines them. -/
theorem k256_eq {t : Nat} (inside : t < 64) : (k256.getD t 0).toBitVec = SecureHash.roundConstant t := by
  have near : ∀ t < 64, ∃ i < 32,
      (i * 2 ^ 32 + (k256.getD t 0).toNat) ^ 3 ≤ SecureHash.primes.getD t 0 * 2 ^ (32 * 3) ∧
        SecureHash.primes.getD t 0 * 2 ^ (32 * 3) < (i * 2 ^ 32 + (k256.getD t 0).toNat + 1) ^ 3 := by decide +kernel
  exact (SecureHash.fraction_eq (by decide) (near t inside)).symm

theorem sha256Init_state (buf : Memory) : (sha256Init buf).h.state = SecureHash.initial := by
  have root : ∀ (p : Nat) (x : UInt32), (∃ i < 32, (i * 2 ^ 32 + x.toNat) ^ 2 ≤ p * 2 ^ (32 * 2) ∧
      p * 2 ^ (32 * 2) < (i * 2 ^ 32 + x.toNat + 1) ^ 2) → SecureHash.fraction 2 p = x.toBitVec :=
    fun _ _ near => SecureHash.fraction_eq (by decide) near
  rw [SecureHash.initial, root 2 0x6a09e667 (by decide +kernel), root 3 0xbb67ae85 (by decide +kernel),
    root 5 0x3c6ef372 (by decide +kernel), root 7 0xa54ff53a (by decide +kernel),
    root 11 0x510e527f (by decide +kernel), root 13 0x9b05688c (by decide +kernel),
    root 17 0x1f83d9ab (by decide +kernel), root 19 0x5be0cd19 (by decide +kernel)]
  rfl

/-- A loop that fills an array from index `first` on, where an entry depends on the earlier ones. -/
theorem fill_array (entry : Array UInt32 → Nat → UInt32) {table : Nat → UInt32} {first limit : Nat}
    (solves : ∀ w : Array UInt32, ∀ i < limit, first ≤ i → (∀ j < i, w.getD j 0 = table j) → entry w i = table i)
    {w : Array UInt32} (size : w.size = 64) (small : limit ≤ 64) (before : ∀ j < first, w.getD j 0 = table j)
    (count : Nat) (room : first + count ≤ limit) :
    let filled := (List.range' first count).foldl (fun w i => w.setIfInBounds i (entry w i)) w
    filled.size = 64 ∧ ∀ j < first + count, filled.getD j 0 = table j := by
  induction count with
  | zero => exact ⟨size, before⟩
  | succ count ih =>
      obtain ⟨size', earlier⟩ := ih (by omega)
      rw [List.range'_concat, List.foldl_append, Nat.one_mul, List.foldl_cons, List.foldl_nil]
      refine ⟨by rw [Array.size_setIfInBounds, size'], fun j inside => ?_⟩
      rw [Array.getD_eq_getD_getElem?, Array.getElem?_setIfInBounds]
      by_cases last : first + count = j
      · subst last
        rw [if_pos rfl, if_pos (by omega)]
        exact solves _ _ (by omega) (Nat.le_add_right first count) earlier
      · rw [if_neg last, ← Array.getD_eq_getD_getElem?]
        exact earlier j (by omega)

/-- The two loops of `_sha256_block` compute the message schedule. -/
theorem schedule_eq {data : Memory} {bytes : List UInt8} (same : ∀ i < 64, data i = bytes.getD i 0) :
    ∀ t < 64, (schedule data).getD t 0 = UInt32.ofBitVec (SecureHash.schedule bytes t) := by
  have input : ∀ t < 16, wordOf data t = UInt32.ofBitVec (SecureHash.schedule bytes t) := by
    intro t early
    rw [SecureHash.schedule_input early, ← UInt32.toBitVec_inj, wordOf_eq, same _ (by omega), same _ (by omega),
      same _ (by omega), same _ (by omega), Nat.mul_comm t 4]
    rfl
  obtain ⟨size, words⟩ := fill_array (fun _ i => wordOf data i) (fun _ i early _ _ => input i early)
    Array.size_replicate (by decide) (fun j none => absurd none (Nat.not_lt_zero j)) 16 (Nat.le_refl 16)
  have solves : ∀ w : Array UInt32, ∀ i < 64, 16 ≤ i →
      (∀ j < i, w.getD j 0 = UInt32.ofBitVec (SecureHash.schedule bytes j)) →
      nextWord w i = UInt32.ofBitVec (SecureHash.schedule bytes i) := by
    intro w i _ late earlier
    rw [SecureHash.schedule_recurrence late, nextWord, earlier _ (by omega), earlier _ (by omega), earlier _ (by omega),
      earlier _ (by omega), ← UInt32.toBitVec_inj]
    simp only [UInt32.toBitVec_add, sig0_eq, sig1_eq]
  obtain ⟨-, filled⟩ := fill_array nextWord solves size (Nat.le_refl 64) words 48 (Nat.le_refl 64)
  intro t inside
  rw [schedule]
  exact filled t inside

/-- A round of the loop is a round of the standard. -/
theorem sha256Round_state {w : Array UInt32} {spec : Nat → SecureHash.Word} {t : Nat} (inside : t < 64)
    (same : w.getD t 0 = UInt32.ofBitVec (spec t)) (v : Words) :
    (sha256Round w v t).state = SecureHash.round spec v.state t := by
  simp only [sha256Round, SecureHash.round, Words.state, UInt32.toBitVec_add, ep0_eq, ep1_eq, k256_eq inside, same]
  rfl

theorem rounds_state {w : Array UInt32} {spec : Nat → SecureHash.Word}
    (same : ∀ t < 64, w.getD t 0 = UInt32.ofBitVec (spec t)) (v : Words) {count : Nat} (room : count ≤ 64) :
    ((List.range count).foldl (sha256Round w) v).state = (List.range count).foldl (SecureHash.round spec) v.state := by
  induction count with
  | zero => rfl
  | succ count ih =>
      rw [List.range_succ, List.foldl_append, List.foldl_append, List.foldl_cons, List.foldl_nil, List.foldl_cons,
        List.foldl_nil, sha256Round_state room (same count room), ih (Nat.le_of_succ_le room)]

/-- `_sha256_block` compresses the block. -/
theorem sha256Block_state {data : Memory} {bytes : List UInt8} (same : ∀ i < 64, data i = bytes.getD i 0) (h : Words) :
    (sha256Block h data).state = SecureHash.compress h.state bytes := by
  have rounds := rounds_state (schedule_eq same) h (Nat.le_refl 64)
  rw [SecureHash.compress, ← rounds]
  rfl

/-! ## Pieces -/

/-- What `update` did so far: the bytes that are kept are at the start of the buffer. -/
structure Holds (s : Sha256) (p : SecureHash.State × List UInt8) : Prop where
  state : s.h.state = p.1
  short : p.2.length < 64
  blen : s.blen.toNat = p.2.length
  kept : ∀ i < p.2.length, s.buf i = p.2.getD i 0

/-- The state after the bytes of a piece. -/
abbrev absorb (p : SecureHash.State × List UInt8) (l : List UInt8) : SecureHash.State × List UInt8 :=
  feed SecureHash.compress 64 p l

theorem sha256Init_holds (buf : Memory) : Holds (sha256Init buf) (SecureHash.initial, []) :=
  ⟨sha256Init_state buf, by decide, rfl, fun _ none => absurd none (Nat.not_lt_zero _)⟩

/-- The bytes that are copied come behind those that are kept. -/
theorem Holds.copied {s : Sha256} {p : SecureHash.State × List UInt8} (holds : Holds s p) {data : List UInt8}
    {take : Nat} (some : take ≤ data.length) {i : Nat} (inside : i < (p.2 ++ data.take take).length) :
    paste s.buf s.blen.toNat take (fun i => data.getD i 0) i = (p.2 ++ data.take take).getD i 0 := by
  rw [List.length_append, List.length_take, Nat.min_eq_left some] at inside
  rw [paste, holds.blen]
  by_cases old : i < p.2.length
  · rw [if_neg (by omega), List.getD_append _ _ _ _ old, holds.kept i old]
  · rw [if_pos (by omega), List.getD_append_right _ _ _ _ (Nat.not_lt.mp old), List.getD_eq_getElem?_getD,
      List.getD_eq_getElem?_getD, List.getElem?_take_of_lt (by omega)]

theorem takeSize_eq {blen : UInt32} {data : List UInt8} (short : blen.toNat < 64) (fits : data.length < 2 ^ 32) :
    (takeSize blen data).toNat = min data.length (64 - blen.toNat) := by
  have space : (64 - blen).toNat = 64 - blen.toNat :=
    UInt32.toNat_sub_of_le _ _ (UInt32.le_iff_toNat_le.mpr (Nat.le_of_lt short))
  have size : (UInt32.ofNat data.length).toNat = data.length := UInt32.toNat_ofNat_of_lt fits
  rw [takeSize]
  by_cases less : UInt32.ofNat data.length < 64 - blen
  · have smaller := UInt32.lt_iff_toNat_lt.mp less
    rw [size, space] at smaller
    rw [if_pos less, size, Nat.min_eq_left (Nat.le_of_lt smaller)]
  · have larger := Nat.not_lt.mp fun smaller => less (UInt32.lt_iff_toNat_lt.mpr smaller)
    rw [size, space] at larger
    rw [if_neg less, space, Nat.min_eq_right larger]

/-- A turn takes the bytes that fit, and consumes the buffer when it is full. -/
theorem Holds.turn {s : Sha256} {p : SecureHash.State × List UInt8} (holds : Holds s p) {data : List UInt8}
    (nonempty : data.length ≠ 0) (fits : data.length < 2 ^ 32) :
    Holds (updateTurn s data) (absorb p (data.take (takeSize s.blen data).toNat)) := by
  have short := holds.short
  have blen := holds.blen
  have positive := Nat.pos_of_ne_zero nonempty
  have size := takeSize_eq (blen ▸ short) fits
  rw [updateTurn]
  generalize takeSize s.blen data = take at size ⊢
  have some : take.toNat ≤ data.length := size ▸ Nat.min_le_left _ _
  have piece : (data.take take.toNat).length = take.toNat := by rw [List.length_take, Nat.min_eq_left some]
  have length : (p.2 ++ data.take take.toNat).length = p.2.length + take.toNat := by rw [List.length_append, piece]
  have copied : ∀ i < (p.2 ++ data.take take.toNat).length, _ := fun i inside => holds.copied some inside
  have sum : (s.blen + take).toNat = p.2.length + take.toNat := by
    rw [UInt32.toNat_add, blen]
    exact Nat.mod_eq_of_lt (by omega)
  have filled : s.blen + take = 64 ↔ p.2.length + take.toNat = 64 := by
    rw [← UInt32.toNat_inj, sum]
    rfl
  by_cases full : p.2.length + take.toNat = 64
  · have consumed : absorb p (data.take take.toNat) =
        (SecureHash.compress p.1 (p.2 ++ data.take take.toNat), []) :=
      feed_full (List.ne_nil_of_length_pos (by omega)) (by rw [piece, full])
    rw [consumed]
    simp only [if_pos (filled.mpr full)]
    refine ⟨?_, Nat.zero_lt_succ 63, rfl, fun _ none => absurd none (Nat.not_lt_zero _)⟩
    rw [← holds.state]
    exact sha256Block_state (fun i inside => copied i (by rw [length, full]; exact inside)) s.h
  · have kept : absorb p (data.take take.toNat) = (p.1, p.2 ++ data.take take.toNat) := feed_short (by omega)
    rw [kept]
    simp only [if_neg (mt filled.mp full)]
    exact ⟨holds.state, length.trans_lt (by omega), sum.trans length.symm, copied⟩

theorem updateTurn_total (s : Sha256) (data : List UInt8) : (updateTurn s data).total = s.total := by
  rw [updateTurn]
  split <;> rfl

/-- The turns of the loop take the whole piece. -/
theorem Holds.loop (turns : Nat) {s : Sha256} {p : SecureHash.State × List UInt8} (holds : Holds s p)
    {data : List UInt8} (enough : data.length ≤ turns) (fits : data.length < 2 ^ 32) :
    Holds (updateLoop s data turns) (absorb p data) ∧ (updateLoop s data turns).total = s.total := by
  induction turns generalizing s p data with
  | zero =>
      cases List.eq_nil_of_length_eq_zero (Nat.le_zero.mp enough)
      exact ⟨holds, rfl⟩
  | succ turns ih =>
      by_cases done : data.length = 0
      · cases List.eq_nil_of_length_eq_zero done
        exact ⟨holds, rfl⟩
      · have size := takeSize_eq (holds.blen ▸ holds.short) fits
        have short := holds.short
        have blen := holds.blen
        have rest : (data.drop (takeSize s.blen data).toNat).length ≤ turns ∧
            (data.drop (takeSize s.blen data).toNat).length < 2 ^ 32 := by
          rw [List.length_drop]
          omega
        have later := ih (holds.turn done fits) rest.1 rest.2
        rw [updateTurn_total, absorb, absorb, ← feed_append, List.take_append_drop] at later
        rw [updateLoop, if_neg done]
        exact later

/-- `sha256_update` consumes the piece and counts its bytes. -/
theorem sha256Update_holds {s : Sha256} {p : SecureHash.State × List UInt8} (holds : Holds s p) (data : List UInt8)
    (fits : data.length < 2 ^ 32) :
    Holds (sha256Update s data) (absorb p data) ∧ (sha256Update s data).total = s.total + UInt64.ofNat data.length := by
  have counted : Holds { s with total := s.total + UInt64.ofNat data.length } p :=
    ⟨holds.state, holds.short, holds.blen, holds.kept⟩
  exact counted.loop data.length (Nat.le_refl _) fits

/-- A run of `sha256_update` over pieces. -/
theorem pieces_holds {s : Sha256} {p : SecureHash.State × List UInt8} (holds : Holds s p) {pieces : List (List UInt8)}
    (fits : ∀ data ∈ pieces, data.length < 2 ^ 32) :
    Holds (pieces.foldl sha256Update s) (absorb p pieces.flatten) ∧
      (pieces.foldl sha256Update s).total = s.total + UInt64.ofNat pieces.flatten.length := by
  induction pieces generalizing s p with
  | nil => exact ⟨holds, (UInt64.add_zero s.total).symm⟩
  | cons data pieces ih =>
      have first := sha256Update_holds holds data (fits data List.mem_cons_self)
      have later := ih first.1 fun data member => fits data (List.mem_cons_of_mem _ member)
      rw [List.foldl_cons, List.flatten_cons, absorb, feed_append, List.length_append, UInt64.ofNat_add,
        ← UInt64.add_assoc, ← first.2]
      exact later

/-! ## The end of the message -/

/-- The zeros that fill the block up to the place of the length. -/
theorem padLoop_holds (count : Nat) {s : Sha256} {p : SecureHash.State × List UInt8} (holds : Holds s p) (fuel : Nat)
    (enough : count < fuel) (small : count < 64) (fill : (p.2.length + count) % 64 = 56) :
    ∃ s', padLoop fuel s = some s' ∧ Holds s' (absorb p (List.replicate count 0)) := by
  induction count generalizing s p fuel with
  | zero =>
      obtain ⟨fuel, rfl⟩ := Nat.exists_eq_succ_of_ne_zero (Nat.ne_of_gt enough)
      rw [Nat.add_zero, Nat.mod_eq_of_lt holds.short, ← holds.blen] at fill
      exact ⟨s, if_pos (UInt32.toNat_inj.mp fill), holds⟩
  | succ count ih =>
      obtain ⟨fuel, rfl⟩ := Nat.exists_eq_succ_of_ne_zero (Nat.ne_of_gt (Nat.lt_of_le_of_lt (Nat.zero_le _) enough))
      have short := holds.short
      have running : s.blen ≠ 56 := by
        intro stop
        have blen := holds.blen
        rw [stop] at blen
        change 56 = p.2.length at blen
        omega
      have zero := (sha256Update_holds holds [0] (by decide)).1
      have length : (absorb p [0]).2.length = (p.2.length + 1) % 64 := length_feed (by decide) short [0]
      obtain ⟨s', loop, holds'⟩ := ih zero fuel (by omega) (by omega) (by rw [length]; omega)
      refine ⟨s', ?_, ?_⟩
      · rw [padLoop, if_neg running]
        exact loop
      · rw [absorb, absorb, ← feed_append] at holds'
        exact holds'

/-- A loop that puts the lowest byte first, and goes on with the rest of the number. -/
theorem lengthBytes_loop (bits : UInt64) (count : Nat) :
    let p := (List.range count).foldl (fun p _ => lengthTurn p) ([], bits)
    p.1 = SecureHash.bigEndianBytes count bits.toNat ∧ p.2.toNat = bits.toNat / 256 ^ count := by
  induction count with
  | zero => exact ⟨rfl, (Nat.div_one _).symm⟩
  | succ count ih =>
      rw [List.range_succ, List.foldl_append, List.foldl_cons, List.foldl_nil, SecureHash.bigEndianBytes_succ]
      refine ⟨?_, ?_⟩
      · rw [← ih.1, ← ih.2]
        rfl
      · rw [lengthTurn, UInt64.toNat_shiftRight, ih.2, Nat.shiftRight_eq_div_pow, pow_succ, ← Nat.div_div_eq_div_mul]
        rfl

/-- `sha256_final` writes the number of bits, the highest byte first. -/
theorem lengthBytes_eq (bits : UInt64) : lengthBytes bits = SecureHash.bigEndianBytes 8 bits.toNat :=
  (lengthBytes_loop bits 8).1

theorem wordBytes_eq (x : UInt32) : wordBytes x = SecureHash.bigEndianBytes 4 x.toBitVec.toNat := by
  have byte : ∀ n : UInt32, (x >>> n).toUInt8 = UInt8.ofNat (x.toNat / 2 ^ (n.toNat % 32)) := by
    intro n
    rw [← Nat.shiftRight_eq_div_pow, ← UInt32.toNat_shiftRight]
    rfl
  have last : x.toUInt8 = UInt8.ofNat (x.toNat / 256 ^ 0) := by
    rw [pow_zero, Nat.div_one]
    rfl
  rw [wordBytes, byte, byte, byte, last]
  rfl

theorem digestBytes_eq (h : Words) : digestBytes h = h.state.bytes := by
  rw [digestBytes, SecureHash.State.bytes]
  simp only [List.flatMap_cons, List.flatMap_nil, wordBytes_eq, Words.state]

/-- The digest does not depend on how the message is cut into pieces, and is that of the standard. -/
theorem sha256_streaming (buf : Memory) (pieces : List (List UInt8)) (fits : ∀ data ∈ pieces, data.length < 2 ^ 32)
    (short : pieces.flatten.length < 2 ^ 61) :
    sha256Final 64 (pieces.foldl sha256Update (sha256Init buf)) = some (SecureHash.sha256 pieces.flatten) := by
  obtain ⟨holds, total⟩ := pieces_holds (sha256Init_holds buf) fits
  generalize pieces.foldl sha256Update (sha256Init buf) = s at holds total ⊢
  generalize pieces.flatten = message at holds total short ⊢
  have bits : (s.total * 8).toNat = 8 * message.length := by
    have count : (UInt64.ofNat message.length).toNat = message.length :=
      UInt64.toNat_ofNat_of_lt' (short.trans (by decide))
    have start : (sha256Init buf).total + UInt64.ofNat message.length = UInt64.ofNat message.length := UInt64.zero_add _
    have eight : (8 : UInt64).toNat = 8 := rfl
    rw [total, start, UInt64.toNat_mul, count, eight, Nat.mul_comm]
    exact Nat.mod_eq_of_lt (by omega)
  have one := (sha256Update_holds holds [0x80] (by decide)).1
  have kept : (absorb (absorb (SecureHash.initial, []) message) [0x80]).2.length = (message.length + 1) % 64 := by
    rw [absorb, absorb, ← feed_append, length_feed (by decide) (Nat.zero_lt_succ 63), List.length_append]
    exact congrArg (· % 64) (Nat.zero_add _)
  have fill := SecureHash.zeros_spec message.length
  obtain ⟨s', loop, holds'⟩ := padLoop_holds (SecureHash.zeros message.length) one 64 (SecureHash.zeros_lt _)
    (SecureHash.zeros_lt _) (by rw [kept]; omega)
  have few : (lengthBytes (s.total * 8)).length < 2 ^ 32 := by
    rw [lengthBytes_eq, SecureHash.bigEndianBytes, List.length_map, List.length_range]
    decide
  have last := (sha256Update_holds holds' _ few).1
  have padded : absorb (absorb (absorb (absorb (SecureHash.initial, []) message) [0x80])
      (List.replicate (SecureHash.zeros message.length) 0)) (lengthBytes (s.total * 8)) =
      absorb (SecureHash.initial, []) (SecureHash.pad message) := by
    rw [absorb, absorb, absorb, absorb, ← feed_append, ← feed_append, ← feed_append, lengthBytes_eq, bits, absorb,
      SecureHash.pad, List.append_assoc]
    rfl
  rw [padded, absorb, feed_blocks (by decide) _ (SecureHash.pad_whole message)] at last
  have digest : sha256Final 64 s = some (digestBytes (sha256Update s' (lengthBytes (s.total * 8))).h) := by
    rw [sha256Final, loop]
    rfl
  rw [digest, digestBytes_eq, last.state]
  rfl

/-- The pieces "a", "" and "bc". -/
theorem sha256_streaming_abc : sha256Final 64 ([[97], [], [98, 99]].foldl sha256Update (sha256Init fun _ => 0)) =
    some (SecureHash.sha256 [97, 98, 99]) :=
  sha256_streaming (fun _ => 0) [[97], [], [98, 99]] (by decide) (by decide)

end Systrix.Tls
