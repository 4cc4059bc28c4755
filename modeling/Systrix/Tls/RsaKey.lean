import Systrix.Lib.Der
import Systrix.Tls.Rsa

/-!
# Keys in certificates

What `parse_rsa_pubkey` makes of the DER encoding of a key, and for which keys the numbers that are passed on to
`_bignum_modexp` are those of the key.
-/

namespace Systrix.Tls

open BoundedRead Der Digits Fallible Machine

/-! ## The encoding of a key -/

/-- The contents of an `AlgorithmIdentifier` for RSA: the identifier and a null. -/
def rsaAlgorithm : List UInt8 := [0x06, 0x09] ++ rsaOid ++ [0x05, 0x00]

/-- The two numbers in a sequence. -/
def keyNumbers (n e : Nat) : List UInt8 := tlv 0x30 (tlv 0x02 (intBytes n) ++ tlv 0x02 (intBytes e))

/-- The `SubjectPublicKeyInfo` of a key. -/
def subjectPublicKeyInfo (n e : Nat) : List UInt8 :=
  tlv 0x30 (tlv 0x30 rsaAlgorithm ++ tlv 0x03 (0x00 :: keyNumbers n e))

/-- A key whose encoding has a length of 32 bits. -/
structure RsaKey where
  n : Nat
  e : Nat
  n_pos : 0 < n
  e_pos : 0 < e
  fits : (subjectPublicKeyInfo n e).length < 2 ^ 32

/-! ## Reading -/

variable {msg : List UInt8} {p : Nat}

/-- The number in the bytes of a length, as long as it has 32 bits. -/
theorem foldl_length (bytes : List UInt8) (acc : Nat) (fits : acc * 256 ^ bytes.length + ofBytes bytes < 2 ^ 32) :
    bytes.foldl (fun len byte => u32 (len * 256) ||| byte.toNat) acc = acc * 256 ^ bytes.length + ofBytes bytes := by
  induction bytes generalizing acc with
  | nil => exact (Nat.mul_one acc).symm
  | cons byte bytes ih =>
      have whole : acc * 256 ^ (bytes.length + 1) + ofBytes (byte :: bytes) =
          (acc * 256 + byte.toNat) * 256 ^ bytes.length + ofBytes bytes := by
        rw [ofBytes_cons, pow_succ]
        ring
      rw [List.length_cons] at fits ⊢
      rw [whole] at fits ⊢
      have small : acc * 256 + byte.toNat < 2 ^ 32 :=
        Nat.lt_of_le_of_lt (Nat.le_trans (Nat.le_mul_of_pos_right _ (Nat.pow_pos (by decide))) (Nat.le_add_right _ _)) fits
      have joined : u32 (acc * 256) ||| byte.toNat = acc * 256 + byte.toNat := by
        rw [u32_of_lt (Nat.lt_of_le_of_lt (Nat.le_add_right _ _) small), Nat.mul_comm]
        exact (Nat.two_pow_add_eq_or_of_lt (UInt8.toNat_lt byte) acc).symm
      rw [List.foldl_cons, joined]
      exact ih _ fits

theorem derLength_of_holds {k : Nat} {rest : List UInt8} (holds : Holds msg p (lengthBytes k ++ rest))
    (fits : k < 2 ^ 32) : derLength msg p = .ok ⟨k, (lengthBytes k).length⟩ := by
  have short : byteCount k ≤ 4 := byteCount_le fits
  by_cases small : k < 128
  · have bytes : lengthBytes k = [UInt8.ofNat k] := if_pos small
    have byte : (UInt8.ofNat k).toNat = k := UInt8.toNat_ofNat_of_lt' (Nat.lt_trans small (by decide))
    rw [bytes] at holds ⊢
    rw [derLength, holds.readByte, ok_bind, if_pos (UInt8.lt_iff_toNat_lt.mpr (byte.symm ▸ small)), byte]
    rfl
  · have bytes : lengthBytes k = UInt8.ofNat (128 + byteCount k) :: toBytes (byteCount k) k := if_neg small
    have first : (UInt8.ofNat (128 + byteCount k)).toNat = 128 + byteCount k :=
      UInt8.toNat_ofNat_of_lt' (Nat.lt_of_le_of_lt (Nat.add_le_add_left short 128) (by decide))
    have count : (UInt8.ofNat (128 + byteCount k) &&& 0x7f).toNat = byteCount k := by
      rw [UInt8.toNat_and, first, show (0x7f : UInt8).toNat = 2 ^ 7 - 1 from rfl, Nat.and_two_pow_sub_one_eq_mod]
      omega
    have long : ¬UInt8.ofNat (128 + byteCount k) < 0x80 := by
      rw [UInt8.lt_iff_toNat_lt, first]
      exact Nat.not_lt.mpr (Nat.le_add_right 128 _)
    rw [bytes] at holds ⊢
    have contents := holds.tail.left.readBytes
    rw [length_toBytes] at contents
    have value := foldl_length (toBytes (byteCount k) k) 0 (by rwa [Nat.zero_mul, Nat.zero_add, ofBytes_toBytes (lt_byteCount k)])
    rw [Nat.zero_mul, Nat.zero_add, ofBytes_toBytes (lt_byteCount k)] at value
    rw [derLength, holds.readByte, ok_bind, if_neg long, count]
    dsimp only
    rw [contents, ok_bind, value, List.length_cons, length_toBytes, Nat.add_comm]
    rfl

theorem expectTag_of_holds {stop : Nat} {tag : UInt8} {bytes : List UInt8} (holds : Holds msg p (tag :: bytes))
    (before : p < stop) : expectTag msg stop p tag = .ok () := by
  rw [expectTag, if_neg (Nat.not_le.mpr before), holds.readByte, ok_bind, if_neg (not_not.mpr rfl)]
  rfl

/-- The length and the contents of a value. -/
theorem contents_of_holds {tag : UInt8} {body rest : List UInt8} (holds : Holds msg p (tlv tag body ++ rest))
    (fits : body.length < 2 ^ 32) :
    derLength msg (p + 1) = .ok ⟨body.length, (lengthBytes body.length).length⟩ ∧
      Holds msg (p + 1 + (lengthBytes body.length).length) (body ++ rest) := by
  have behind : Holds msg (p + 1) (lengthBytes body.length ++ (body ++ rest)) := by
    rw [tlv, List.cons_append, List.append_assoc] at holds
    exact holds.tail
  exact ⟨derLength_of_holds behind fits, behind.right⟩

/-- A value at the end of what is held. -/
theorem contents_of_holds_last {tag : UInt8} {body : List UInt8} (holds : Holds msg p (tlv tag body))
    (fits : body.length < 2 ^ 32) :
    derLength msg (p + 1) = .ok ⟨body.length, (lengthBytes body.length).length⟩ ∧
      Holds msg (p + 1 + (lengthBytes body.length).length) body := by
  rw [← List.append_nil (tlv tag body)] at holds
  obtain ⟨length, contents⟩ := contents_of_holds holds fits
  rw [List.append_nil] at contents
  exact ⟨length, contents⟩

/-- The modulus and the exponent, unless one of them is too long. -/
theorem parseModulus_of_holds {stop : Nat} {nBytes eBytes : List UInt8}
    (holds : Holds msg p (nBytes ++ tlv 0x02 eBytes)) (before : p + nBytes.length < stop) (fits : eBytes.length < 2 ^ 32) :
    parseModulus msg stop p nBytes.length =
      if nBytes.length > rsaMaxBytes ∨ eBytes.length > 4 then .error .rejected
      else .ok ⟨nBytes, List.replicate (4 - eBytes.length) 0 ++ eBytes, eBytes.length⟩ := by
  rw [parseModulus]
  by_cases long : nBytes.length > rsaMaxBytes
  · rw [if_pos long, if_pos (.inl long)]
    rfl
  · obtain ⟨length, contents⟩ := contents_of_holds_last holds.right fits
    rw [if_neg long, holds.left.readBytes, ok_bind]
    dsimp only
    rw [expectTag_of_holds holds.right before, ok_bind, length, ok_bind]
    by_cases wide : eBytes.length > 4
    · rw [if_pos wide, if_pos (.inr wide)]
      rfl
    · rw [if_neg wide, if_neg (not_or.mpr ⟨long, wide⟩), contents.readBytes, ok_bind]
      rfl

/-- The bytes of the modulus that are kept: without the first one if it is zero. -/
def modulusBytes (n : Nat) : List UInt8 :=
  if digit n (n.size / 8) = 0 then toBytes (n.size / 8) n else intBytes n

theorem lt_of_digit_eq_zero {n : Nat} (zero : digit n (n.size / 8) = 0) : n < 256 ^ (n.size / 8) := by
  have below : n < 256 ^ (n.size / 8 + 1) := by
    rw [pow_256, ← Nat.size_le]
    omega
  rw [digit, Nat.mod_eq_of_lt (Nat.div_lt_of_lt_mul (by rwa [pow_succ] at below))] at zero
  exact (Nat.div_eq_zero_iff_lt (Nat.pow_pos (by decide))).mp zero

theorem ofBytes_modulusBytes (n : Nat) : ofBytes (modulusBytes n) = n := by
  rw [modulusBytes]
  split_ifs with zero
  · exact ofBytes_toBytes (lt_of_digit_eq_zero zero)
  · exact ofBytes_intBytes n

/-- The modulus is kept if it has 2048 bits. -/
theorem length_modulusBytes_le {n : Nat} : (modulusBytes n).length ≤ rsaMaxBytes ↔ n < 2 ^ 2048 := by
  rw [modulusBytes, ← Nat.size_le, rsaMaxBytes]
  split_ifs with zero
  · have small := lt_of_digit_eq_zero zero
    rw [pow_256, ← Nat.size_le] at small
    rw [length_toBytes]
    omega
  · have large : ¬n < 256 ^ (n.size / 8) := fun below => zero (digit_of_lt below)
    rw [pow_256, ← Nat.size_le] at large
    rw [length_intBytes]
    omega

/-- The first byte of the modulus is left out if it is zero. -/
theorem modulus_of_holds {stop n : Nat} {eBytes : List UInt8} (holds : Holds msg p (intBytes n ++ tlv 0x02 eBytes))
    (before : p + (intBytes n).length < stop) (fits : eBytes.length < 2 ^ 32) (fits' : (intBytes n).length < 2 ^ 32) :
    (readByte msg p >>= fun lead =>
        if lead = 0x00 then parseModulus msg stop (p + 1) (sub32 (intBytes n).length 1)
        else parseModulus msg stop p (intBytes n).length) =
      if (modulusBytes n).length > rsaMaxBytes ∨ eBytes.length > 4 then .error .rejected
      else .ok ⟨modulusBytes n, List.replicate (4 - eBytes.length) 0 ++ eBytes, eBytes.length⟩ := by
  have first : Holds msg p (UInt8.ofNat (digit n (n.size / 8)) :: (toBytes (n.size / 8) n ++ tlv 0x02 eBytes)) := by
    rwa [← List.cons_append, ← intBytes_eq]
  have byte : UInt8.ofNat (digit n (n.size / 8)) = 0x00 ↔ digit n (n.size / 8) = 0 := by
    rw [← UInt8.toNat_inj, UInt8.toNat_ofNat_of_lt' (digit_lt _ _)]
    exact Iff.rfl
  rw [first.readByte, ok_bind, modulusBytes]
  by_cases zero : digit n (n.size / 8) = 0
  · have length : sub32 (intBytes n).length 1 = (toBytes (n.size / 8) n).length := by
      rw [length_intBytes] at fits' ⊢
      rw [length_toBytes, sub32_of_le (Nat.le_add_left 1 _) fits', Nat.add_sub_cancel]
    rw [length_intBytes] at before
    rw [if_pos (byte.mpr zero), if_pos zero, length,
      parseModulus_of_holds first.tail (by rw [length_toBytes]; omega) fits]
  · rw [if_neg (mt byte.mp zero), if_neg zero, parseModulus_of_holds holds before fits]

/-- The parser reads the numbers of the key, unless one of them is too long. -/
theorem parseRsaPubkey_of_holds (key : RsaKey) {der : Nat} (holds : Holds msg der (subjectPublicKeyInfo key.n key.e)) :
    parseRsaPubkey msg der (subjectPublicKeyInfo key.n key.e).length =
      if (modulusBytes key.n).length > rsaMaxBytes ∨ (intBytes key.e).length > 4 then .error .rejected
      else .ok ⟨modulusBytes key.n, List.replicate (4 - (intBytes key.e).length) 0 ++ intBytes key.e,
        (intBytes key.e).length⟩ := by
  have fits := key.fits
  have whole := length_tlv 0x30 (tlv 0x30 rsaAlgorithm ++ tlv 0x03 (0x00 :: keyNumbers key.n key.e))
  have algorithm := length_tlv 0x30 rsaAlgorithm
  have bits := length_tlv 0x03 (0x00 :: keyNumbers key.n key.e)
  have numbers := length_tlv 0x30 (tlv 0x02 (intBytes key.n) ++ tlv 0x02 (intBytes key.e))
  have modulus := length_tlv 0x02 (intBytes key.n)
  have exponent := length_tlv 0x02 (intBytes key.e)
  rw [← subjectPublicKeyInfo] at whole
  rw [← keyNumbers] at numbers
  have both : (tlv 0x30 rsaAlgorithm ++ tlv 0x03 (0x00 :: keyNumbers key.n key.e)).length = _ := List.length_append
  have padded : (0x00 :: keyNumbers key.n key.e).length = _ := List.length_cons
  have two : (tlv 0x02 (intBytes key.n) ++ tlv 0x02 (intBytes key.e)).length = _ := List.length_append
  obtain ⟨len0, in1⟩ := contents_of_holds_last holds (by omega)
  obtain ⟨len1, in2⟩ := contents_of_holds in1 (by omega)
  obtain ⟨len2, in3⟩ := contents_of_holds_last in2.right (by omega)
  obtain ⟨len3, in4⟩ := contents_of_holds_last in3.tail (by omega)
  obtain ⟨len4, in5⟩ := contents_of_holds in4 (by omega)
  rw [parseRsaPubkey]
  dsimp only
  rw [expectTag_of_holds holds (by omega), ok_bind, len0, ok_bind]
  dsimp only
  rw [expectTag_of_holds in1.left (by omega), ok_bind, len1, ok_bind]
  dsimp only
  rw [expectTag_of_holds in2.right (by omega), ok_bind, len2, ok_bind]
  dsimp only
  rw [expectTag_of_holds in3.tail (by omega), ok_bind, len3, ok_bind]
  dsimp only
  rw [expectTag_of_holds in4.left (by omega), ok_bind, len4, ok_bind]
  dsimp only
  exact modulus_of_holds in5 (by omega) (by omega) (by omega)

/-! ## What is passed on -/

/-- The key is read from its place in a message, and the modulus and the exponent that `rsa_pkcs1_encrypt` passes on are
those of the key. -/
def PassedRight (key : RsaKey) (before after : List UInt8) : Prop :=
  ∃ pub, parseRsaPubkey (before ++ subjectPublicKeyInfo key.n key.e ++ after) before.length
      (subjectPublicKeyInfo key.n key.e).length = .ok pub ∧
    ofBytes pub.n = key.n ∧ ofBytes (pub.e.take pub.elen) = key.e

/-- The bytes of an exponent that is stored to the right are cut off when they are taken from the left. -/
theorem take_padded_iff {eBytes : List UInt8} (short : eBytes.length ≤ 4) (positive : 0 < ofBytes eBytes) :
    ofBytes ((List.replicate (4 - eBytes.length) 0 ++ eBytes).take eBytes.length) = ofBytes eBytes ↔
      eBytes.length = 4 := by
  constructor
  · intro same
    have whole := ofBytes_append ((List.replicate (4 - eBytes.length) 0 ++ eBytes).take eBytes.length)
      ((List.replicate (4 - eBytes.length) 0 ++ eBytes).drop eBytes.length)
    rw [List.take_append_drop, ofBytes_padded, same, List.length_drop, List.length_append, List.length_replicate] at whole
    by_contra other
    have room : 256 ^ 1 ≤ 256 ^ (4 - eBytes.length + eBytes.length - eBytes.length) :=
      Nat.pow_le_pow_right (by decide) (by omega)
    have grown := Nat.mul_le_mul_left (ofBytes eBytes) room
    omega
  · intro full
    rw [full, Nat.sub_self, List.replicate_zero, List.nil_append, ← full, List.take_length]

/-- The numbers that are passed on are right just if the modulus has 2048 bits and the exponent fills four bytes. -/
theorem passedRight_iff (key : RsaKey) (before after : List UInt8) :
    PassedRight key before after ↔ key.n < 2 ^ 2048 ∧ 2 ^ 23 ≤ key.e ∧ key.e < 2 ^ 31 := by
  have parsed := parseRsaPubkey_of_holds key (holds_append before (subjectPublicKeyInfo key.n key.e) after)
  have short : (intBytes key.e).length ≤ 4 ↔ key.e < 2 ^ 31 := length_intBytes_le (by decide)
  have four : (intBytes key.e).length = 4 ↔ 2 ^ 23 ≤ key.e ∧ key.e < 2 ^ 31 := by
    have three : (intBytes key.e).length ≤ 3 ↔ key.e < 2 ^ 23 := length_intBytes_le (by decide)
    rw [← short, ← Nat.not_lt, ← three]
    omega
  rw [PassedRight, parsed, ← length_modulusBytes_le, ← four]
  by_cases long : (modulusBytes key.n).length > rsaMaxBytes ∨ (intBytes key.e).length > 4
  · rw [if_pos long]
    refine iff_of_false (by rintro ⟨pub, ⟨⟩, -⟩) fun both => ?_
    rcases long with long | long
    · exact absurd both.1 (Nat.not_le.mpr long)
    · omega
  · obtain ⟨modulus, exponent⟩ := not_or.mp long
    have positive : 0 < ofBytes (intBytes key.e) := (ofBytes_intBytes key.e).symm ▸ key.e_pos
    have taken := take_padded_iff (Nat.not_lt.mp exponent) positive
    rw [ofBytes_intBytes] at taken
    rw [if_neg long, and_iff_right (Nat.not_lt.mp modulus), ← taken]
    constructor
    · rintro ⟨pub, same, -, right⟩
      cases same
      exact right
    · intro right
      exact ⟨_, rfl, ofBytes_modulusBytes key.n, right⟩

/-- The numbers of a key are passed on just if the modulus has 2048 bits and the exponent four bytes, and a power is
right if no product that it needs has a carry. -/
theorem rsa_right (key : RsaKey) (before after : List UInt8) {base exp mod : List UInt8} {elen fuel : Nat}
    (inside : elen ≤ exp.length) (sameLength : base.length = mod.length) (big : 1 < ofBytes mod)
    (below : ofBytes base < ofBytes mod) (enough : 256 ^ mod.length ≤ fuel)
    (free : CarryFree mod.length (ofBytes mod) (ofBytes base) (ofBytes (exp.take elen))) :
    (PassedRight key before after ↔ key.n < 2 ^ 2048 ∧ 2 ^ 23 ≤ key.e ∧ key.e < 2 ^ 31) ∧
      ∃ out, bignumModexp fuel base exp elen mod mod.length = some out ∧ out.length = mod.length ∧
        ofBytes out = ofBytes base ^ ofBytes (exp.take elen) % ofBytes mod :=
  ⟨passedRight_iff key before after, bignumModexp_eq inside sameLength big below enough free⟩

/-- A small key with the exponent that is usual. -/
def usualKey : RsaKey := ⟨33, 65537, by decide, by decide, by decide +kernel⟩

/-- The cube of 5 modulo 251: the products are 5, 25 and 125. -/
theorem rsa_right_cube :
    (PassedRight usualKey [] [] ↔ usualKey.n < 2 ^ 2048 ∧ 2 ^ 23 ≤ usualKey.e ∧ usualKey.e < 2 ^ 31) ∧
      ∃ out, bignumModexp 256 [5] [3] 1 [251] 1 = some out ∧ out.length = 1 ∧ ofBytes out = 5 ^ 3 % 251 := by
  have first : NoCarry 1 1 5 := (value_cut_iff (by decide) (by decide)).mp (by decide)
  have second : NoCarry 1 5 25 := (value_cut_iff (by decide) (by decide)).mp (by decide)
  have square : NoCarry 1 5 5 := (value_cut_iff (by decide) (by decide)).mp (by decide)
  have large : ∀ i, 3 < 2 ^ (i + 2) := fun i =>
    Nat.lt_of_lt_of_le (by decide : 3 < 2 ^ 2) (Nat.pow_le_pow_right (by decide) (Nat.le_add_left 2 i))
  refine rsa_right usualKey [] [] (by decide) rfl (by decide) (by decide) (by decide) ⟨fun i bit => ?_, fun i needed => ?_⟩
  · rcases i with - | - | i
    · exact first
    · exact second
    · exact absurd (Nat.ge_two_pow_of_testBit bit) (Nat.not_le.mpr (large i))
  · rcases i with - | i
    · exact square
    · exact absurd needed (Nat.not_le.mpr (large i))

/-- The square of 100 modulo 251 comes out as 16, and the usual exponent is not passed on. -/
theorem rsa_wrong : (¬∃ out, bignumModexp 256 [100] [2] 1 [251] 1 = some out ∧ ofBytes out = 100 ^ 2 % 251) ∧
    ¬PassedRight usualKey [] [] := by
  refine ⟨?_, ?_⟩
  · have square : bignumModexp 256 [100] [2] 1 [251] 1 = some [16] := by decide +kernel
    rintro ⟨out, same, right⟩
    rw [square] at same
    cases same
    exact absurd right (by decide)
  · rw [passedRight_iff]
    rintro ⟨-, large, -⟩
    exact absurd large (by decide)

end Systrix.Tls
