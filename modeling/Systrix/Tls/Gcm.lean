import Systrix.Lib.CounterMode
import Systrix.Tls.Aes

/-!
# GCM records

`gcm_init`, `gcm_seal` and `gcm_open` of `user/tls.h`.
-/

namespace Systrix.Tls

open ByteMemory CounterMode

/-! ## Authentication -/

/-- A bit of a block, as `x[i/8] & (0x80>>(i%8))` tests it. -/
def bitOf (x : Block) (i : Fin 128) : Bool := x[i.val / 8] &&& (0x80 >>> UInt8.ofNat (i.val % 8)) ≠ 0

/-- The step that multiplies `v` by the variable of the field. -/
def shiftBlock (v : Block) : Block :=
  let lsb := v.get 15 &&& 1
  let shifted : Block := .ofFn fun j =>
    if j.val = 0 then v.get 0 >>> 1 else (v.get j >>> 1) ||| ((v.get (j - 1) &&& 1) <<< 7)
  if lsb ≠ 0 then .ofFn fun j => if j.val = 0 then shifted.get 0 ^^^ 0xe1 else shifted.get j else shifted

def gcmGfMul (x h : Block) : Block :=
  ((List.finRange 128).foldl (fun (z, v) i => (if bitOf x i then z.xor v else z, shiftBlock v))
    ((.replicate 16 0, h) : Block × Block)).1

/-- The bytes at an offset, and zero after `len` of them. -/
def padded (data : Memory) (offset len : Nat) : Block := .ofFn fun i => if i.val < len then data (offset + i.val) else 0

def gcmGhash (h : Block) (tag : Block) (data : Memory) (offset len : Nat) : Block :=
  if 16 ≤ len then gcmGhash h (gcmGfMul (tag.xor (padded data offset 16)) h) data (offset + 16) (len - 16)
  else if len ≠ 0 then gcmGfMul (tag.xor (padded data offset len)) h
  else tag
termination_by len

/-! ## Contexts -/

/-- `GcmCtx` -/
structure GcmCtx where
  key : AesKey
  h : Block
  iv : Vector UInt8 12
  seq : UInt64

/-- `gcm_init`; only the first four bytes of `iv` are set. -/
def gcmInit (g : GcmCtx) (key16 : Block) (iv4 : Vector UInt8 4) : GcmCtx where
  key := aesKeyExpand key16
  h := aesEncryptBlock (aesKeyExpand key16) (.replicate 16 0)
  iv := .ofFn fun i => if low : i.val < 4 then iv4[i.val] else g.iv[i.val]
  seq := 0

/-- Byte `i` of a number, the last one being byte 7. -/
def bigEndian (value : UInt64) (i : Nat) : UInt8 := (value >>> UInt64.ofNat (56 - 8 * i)).toUInt8

/-- `j0`: the fixed part of the IV, the sequence number and 1. -/
def nonce (g : GcmCtx) : Block :=
  .ofFn fun i =>
    if low : i.val < 4 then g.iv[i.val]
    else if i.val < 12 then bigEndian g.seq (i.val - 4)
    else if i.val < 15 then 0 else 1

/-- The loop that increments the last four bytes of `ctr`. -/
def incrementFrom (ctr : Block) : List (Fin 16) → Block
  | [] => ctr
  | c :: cs =>
      let ctr := ctr.set c.val (ctr[c.val] + 1)
      if ctr[c.val] ≠ 0 then ctr else incrementFrom ctr cs

/-- The next counter. -/
def increment (ctr : Block) : Block := incrementFrom ctr [15, 14, 13, 12]

/-- The loop that encrypts and decrypts. -/
def ctrLoop (g : GcmCtx) (data : Memory) (len : UInt32) : Memory :=
  ((List.range len.toNat).foldl (step increment (aesEncryptBlock g.key) (fun block i => block.toArray.getD i 0) 16)
    ⟨nonce g, .replicate 16 0, data⟩).data

/-- `lb`: both lengths in bits. -/
def lengthBlock (aad_len len : UInt32) : Block :=
  .ofFn fun i =>
    if i.val < 8 then bigEndian (aad_len.toUInt64 * 8) i.val else bigEndian (len.toUInt64 * 8) (i.val - 8)

/-- The tag of a ciphertext, as both functions compute it. -/
def gcmTag (g : GcmCtx) (data : Memory) (len : UInt32) (aad : Memory) (aad_len : UInt32) : Block :=
  let s := gcmGhash g.h (.replicate 16 0) aad 0 aad_len.toNat
  let s := gcmGhash g.h s data 0 len.toNat
  let s := gcmGfMul (s.xor (lengthBlock aad_len len)) g.h
  s.xor (aesEncryptBlock g.key (nonce g))

/-- A buffer and a context after a call. -/
structure Record where
  data : Memory
  ctx : GcmCtx

/-- `gcm_seal`; the tag and what the call leaves. -/
def gcmSeal (g : GcmCtx) (ct : Memory) (len : UInt32) (aad : Memory) (aad_len : UInt32) : Block × Record :=
  let ct := ctrLoop g ct len
  (gcmTag g ct len aad aad_len, ⟨ct, { g with seq := g.seq + 1 }⟩)

/-- The bits in which two tags differ. -/
def mismatch (expected tag : Block) : UInt8 := (expected.xor tag).toList.foldl (· ||| ·) 0

def gcmOpen (g : GcmCtx) (pt : Memory) (len : UInt32) (aad : Memory) (aad_len : UInt32) (tag : Block) : Int × Record :=
  if mismatch (gcmTag g pt len aad aad_len) tag ≠ 0 then (-1, ⟨pt, g⟩)
  else (0, ⟨ctrLoop g pt len, { g with seq := g.seq + 1 }⟩)

/-! ## Round trip -/

theorem foldl_or_eq_zero (bytes : List UInt8) (start : UInt8) :
    bytes.foldl (· ||| ·) start = 0 ↔ start = 0 ∧ ∀ byte ∈ bytes, byte = 0 := by
  induction bytes generalizing start with
  | nil => simp
  | cons byte bytes ih =>
      rw [List.foldl_cons, ih, List.forall_mem_cons, UInt8.or_eq_zero_iff, and_assoc]

/-- The comparison of the tags accepts equal tags only. -/
theorem mismatch_eq_zero_iff (expected tag : Block) : mismatch expected tag = 0 ↔ expected = tag := by
  rw [mismatch, foldl_or_eq_zero, and_iff_right rfl]
  constructor
  · intro zero
    refine Vector.ext fun i inside => UInt8.xor_eq_zero_iff.mp ?_
    have byte : (expected.xor tag)[i] = expected[i] ^^^ tag[i] := Vector.getElem_zipWith inside
    rw [← byte]
    exact zero _ (Vector.mem_toList_iff.mpr (Vector.getElem_mem inside))
  · rintro rfl byte member
    rw [Vector.mem_toList_iff, Vector.mem_iff_getElem] at member
    obtain ⟨i, inside, rfl⟩ := member
    rw [Block.xor, Vector.getElem_zipWith, UInt8.xor_self]

/-- The loop combines the buffer with a stream that depends on the key, the fixed IV and the sequence number. -/
theorem ctrLoop_eq (g : GcmCtx) (data : Memory) (len : UInt32) :
    ctrLoop g data len = mask (stream increment (aesEncryptBlock g.key) (fun block i => block.toArray.getD i 0) 16
      (nonce g)) len.toNat data :=
  foldl_step_data _ _ _ 16 _ (by decide) len.toNat

/-- What the two sides of a connection have in common. -/
structure GcmCtx.Agrees (g g' : GcmCtx) : Prop where
  key : g'.key = g.key
  h : g'.h = g.h
  fixed : ∀ i, (low : i < 4) → g'.iv[i] = g.iv[i]
  seq : g'.seq = g.seq

/-- The eight bytes of a number tell it. -/
theorem bigEndian_injective {a b : UInt64} (same : ∀ i < 8, bigEndian a i = bigEndian b i) : a = b := by
  have value : ∀ (v : UInt64) (i : Nat), i < 8 → (bigEndian v i).toNat = v.toNat >>> (56 - 8 * i) % 2 ^ 8 := by
    intro v i inside
    simp only [bigEndian, UInt64.toNat_toUInt8, UInt64.toNat_shiftRight, UInt64.toNat_ofNat']
    congr 2
    omega
  apply UInt64.toNat_inj.mp
  apply Nat.eq_of_testBit_eq
  intro j
  by_cases inside : j < 64
  · have byte := congrArg (fun byte => byte.toNat.testBit (j % 8)) (same (7 - j / 8) (by omega))
    simp only [value _ (7 - j / 8) (by omega), Nat.testBit_mod_two_pow, Nat.testBit_shiftRight] at byte
    have place : 56 - 8 * (7 - j / 8) + j % 8 = j := by omega
    simpa [place, Nat.mod_lt j (by decide : 0 < 8)] using byte
  · have high : ∀ v : UInt64, v.toNat.testBit j = false := fun v =>
      Nat.testBit_lt_two_pow (Nat.lt_of_lt_of_le v.toNat_lt (Nat.pow_le_pow_right (by decide) (by omega)))
    rw [high, high]

/-- The nonces of two contexts with the same fixed IV are equal exactly when their numbers are. -/
theorem nonce_eq_iff {g g' : GcmCtx} (fixed : ∀ i, (low : i < 4) → g'.iv[i] = g.iv[i]) :
    nonce g' = nonce g ↔ g'.seq = g.seq := by
  constructor
  · intro same
    apply bigEndian_injective
    intro i inside
    have byte := congrArg (fun b : Block => b[i + 4]) same
    simp only [nonce, Vector.getElem_ofFn] at byte
    simpa [show i + 4 < 12 by omega, show ¬i + 4 < 4 by omega] using byte
  · intro same
    unfold nonce
    congr 1
    funext i
    split_ifs with low
    · exact fixed i.val low
    · rw [same]
    · rfl
    · rfl

section Agrees

variable {g g' : GcmCtx} (agrees : g.Agrees g')

include agrees

theorem nonce_eq : nonce g' = nonce g := (nonce_eq_iff agrees.fixed).mpr agrees.seq

theorem ctrLoop_congr (data : Memory) (len : UInt32) : ctrLoop g' data len = ctrLoop g data len := by
  rw [ctrLoop_eq, ctrLoop_eq, nonce_eq agrees, agrees.key]

theorem gcmTag_congr (data : Memory) (len : UInt32) (aad : Memory) (aad_len : UInt32) :
    gcmTag g' data len aad aad_len = gcmTag g data len aad aad_len := by
  unfold gcmTag
  rw [nonce_eq agrees, agrees.key, agrees.h]

/-- What one side has sealed the other one opens. -/
theorem gcmOpen_gcmSeal (data : Memory) (len : UInt32) (aad : Memory) (aad_len : UInt32) :
    gcmOpen g' (gcmSeal g data len aad aad_len).2.data len aad aad_len (gcmSeal g data len aad aad_len).1 =
      (0, ⟨data, { g' with seq := g'.seq + 1 }⟩) := by
  have tag : mismatch (gcmTag g' (ctrLoop g data len) len aad aad_len)
      (gcmTag g (ctrLoop g data len) len aad aad_len) = 0 :=
    (mismatch_eq_zero_iff _ _).mpr (gcmTag_congr agrees _ _ _ _)
  have plain : ctrLoop g' (ctrLoop g data len) len = data := by
    rw [ctrLoop_congr agrees, ctrLoop_eq, ctrLoop_eq, mask_mask]
  unfold gcmSeal gcmOpen
  dsimp only
  rw [if_neg (not_not.mpr tag), plain]

end Agrees

/-- A record is opened exactly when its tag is right; otherwise the call changes nothing. -/
theorem gcmOpen_cases (g : GcmCtx) (pt : Memory) (len : UInt32) (aad : Memory) (aad_len : UInt32) (tag : Block) :
    tag = gcmTag g pt len aad aad_len ∧ (gcmOpen g pt len aad aad_len tag).1 = 0 ∨
      tag ≠ gcmTag g pt len aad aad_len ∧ gcmOpen g pt len aad aad_len tag = (-1, ⟨pt, g⟩) := by
  unfold gcmOpen
  by_cases right : gcmTag g pt len aad aad_len = tag
  · rw [if_neg (not_not.mpr ((mismatch_eq_zero_iff _ _).mpr right))]
    exact .inl ⟨right.symm, rfl⟩
  · rw [if_pos fun zero => right ((mismatch_eq_zero_iff _ _).mp zero)]
    exact .inr ⟨fun same => right same.symm, rfl⟩

/-- The keys that were agreed on. -/
structure GcmCtx.Keyed (g : GcmCtx) (key16 : Block) (iv4 : Vector UInt8 4) : Prop where
  key : g.key = aesKeyExpand key16
  h : g.h = aesEncryptBlock (aesKeyExpand key16) (.replicate 16 0)
  fixed : ∀ i, (low : i < 4) → g.iv[i] = iv4[i]

theorem gcmInit_keyed (g : GcmCtx) (key16 : Block) (iv4 : Vector UInt8 4) : (gcmInit g key16 iv4).Keyed key16 iv4 where
  key := rfl
  h := rfl
  fixed i low := by simp [gcmInit, low]

/-- Contexts of the same key, fixed IV and sequence number. -/
theorem agrees_init (g g' : GcmCtx) (key16 : Block) (iv4 : Vector UInt8 4) (seq : UInt64) :
    GcmCtx.Agrees { gcmInit g key16 iv4 with seq := seq } { gcmInit g' key16 iv4 with seq := seq } where
  key := rfl
  h := rfl
  fixed i low := by
    simp [gcmInit, low]
  seq := rfl

/-- For every key, IV, sequence number, additional data and plaintext, the receiver gets the plaintext
of a sealed record back; and a record it rejects leaves its buffer and its context as they were. -/
theorem gcm_round_trip (key16 : Block) (iv4 : Vector UInt8 4) (seq : UInt64) (g g' : GcmCtx) (len aad_len : UInt32)
    (data aad : Memory) :
    let sender := { gcmInit g key16 iv4 with seq := seq }
    let receiver := { gcmInit g' key16 iv4 with seq := seq }
    let sealed := gcmSeal sender data len aad aad_len
    gcmOpen receiver sealed.2.data len aad aad_len sealed.1 = (0, ⟨data, { receiver with seq := seq + 1 }⟩) ∧
      ∀ (ctx : GcmCtx) (buffer : Memory) (tag : Block), (gcmOpen ctx buffer len aad aad_len tag).1 = 0 ∨
        gcmOpen ctx buffer len aad aad_len tag = (-1, ⟨buffer, ctx⟩) := by
  intro sender receiver sealed
  refine ⟨gcmOpen_gcmSeal (agrees_init g g' key16 iv4 seq) data len aad aad_len, fun ctx buffer tag => ?_⟩
  exact (gcmOpen_cases ctx buffer len aad aad_len tag).imp And.right And.right

end Systrix.Tls
