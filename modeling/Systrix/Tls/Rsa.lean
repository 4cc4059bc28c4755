import Systrix.Lib.Digits
import Systrix.Tls.Handshake

/-!
# RSA

The powers that `user/tls.h` takes to encrypt the secret of a connection.  The arrays have the lowest byte first, and
only their first `nlen` bytes are looked at.
-/

namespace Systrix.Tls

/-- An array of bytes, the lowest one first. -/
abbrev Bignum := Nat → UInt8

/-- `cmp`, which starts with the top byte. -/
def cmp (r m : Bignum) : (nlen : Nat) → Ordering
  | 0 => .eq
  | j + 1 => if r j > m j then .gt else if r j < m j then .lt else cmp r m j

/-- A byte of `r - m`, with the borrow. -/
def subStep (m : Bignum) (s : Bignum × UInt16) (j : Nat) : Bignum × UInt16 :=
  let d : UInt16 := (s.1 j).toUInt16 - (m j).toUInt16 - s.2
  (Function.update s.1 j d.toUInt8, (d >>> 8) &&& 1)

/-- The modulus is subtracted. -/
def subtract (nlen : Nat) (m r : Bignum) : Bignum := ((List.range nlen).foldl (subStep m) (r, 0)).1

/-- The modulus is subtracted as long as it is not greater; the fuel bounds the rounds. -/
def reduce (nlen : Nat) (m : Bignum) : (fuel : Nat) → Bignum → Option Bignum
  | 0, _ => none
  | fuel + 1, r => if cmp r m nlen = .lt then some r else reduce nlen m fuel (subtract nlen m r)

/-- `tmp[j+k] += r[j]*b[k]` for each `k` -/
def mulRow (nlen : Nat) (r b tmp : Bignum) (j : Nat) : Bignum :=
  (List.range (nlen - j)).foldl (fun tmp k => Function.update tmp (j + k) (tmp (j + k) + r j * b k)) tmp

/-- The product before it is reduced: bytes, with nothing carried from one to the next. -/
def multiply (nlen : Nat) (r b : Bignum) : Bignum := (List.range nlen).foldl (mulRow nlen r b) fun _ => 0

/-- `(exp[elen-1-(i/8)] >> (i%8)) & 1` -/
def expBit (exp : List UInt8) (elen i : Nat) : Bool := decide ((exp.getD (elen - 1 - i / 8) 0).toNat / 2 ^ (i % 8) % 2 = 1)

/-- The round for a bit of the exponent. -/
def modexpStep (nlen fuel : Nat) (m : Bignum) (bit : Bool) (s : Bignum × Bignum) : Option (Bignum × Bignum) := do
  let r ← if bit then reduce nlen m fuel (multiply nlen s.1 s.2) else some s.1
  let b ← reduce nlen m fuel (multiply nlen s.2 s.2)
  some (r, b)

/-- The low byte first. -/
def reversed (bytes : List UInt8) (nlen : Nat) : Bignum := fun i => bytes.getD (nlen - 1 - i) 0

/-- `_bignum_modexp`; the fuel is for each reduction. -/
def bignumModexp (fuel : Nat) (base exp : List UInt8) (elen : Nat) (mod : List UInt8) (nlen : Nat) :
    Option (List UInt8) :=
  ((List.range (elen * 8)).foldlM
    (fun s i => modexpStep nlen fuel (reversed mod nlen) (expBit exp elen i) s)
    (Function.update (fun _ => 0) 0 1, reversed base nlen)).map fun s =>
      (List.range nlen).map fun i => s.1 (nlen - 1 - i)

/-- `em`, with the random bytes `ps` -/
def paddedSecret (ps pms : List UInt8) : List UInt8 := [0x00, 0x02] ++ ps ++ [0x00] ++ pms

/-- `rsa_pkcs1_encrypt`: the result, and the bytes of `out`. -/
def rsaPkcs1Encrypt (fuel : Nat) (pub : RsaPubKey) (ps pms : List UInt8) : Option (Int × List UInt8) :=
  let k := pub.n.length
  if pms.length + 11 > k then some (-1, [])
  else
    (bignumModexp fuel (paddedSecret ps pms) pub.e pub.elen pub.n k).map fun out => (k, out)

end Systrix.Tls

/-!
## What the powers are

`_bignum_modexp` takes the right power as long as no product that it needs has a carry.
-/

namespace Systrix.Tls

open Digits

variable {nlen : Nat} {r m b : Bignum}

/-- The number in an array. -/
def num (nlen : Nat) (a : Bignum) : Nat := value nlen fun i => (a i).toNat

theorem num_lt (nlen : Nat) (a : Bignum) : num nlen a < 256 ^ nlen := value_lt fun _ _ => UInt8.toNat_lt _

theorem num_congr {a a' : Bignum} (same : ∀ i < nlen, a i = a' i) : num nlen a = num nlen a' :=
  value_congr fun i inside => by rw [same i inside]

/-! ## Reduction -/

theorem num_succ (j : Nat) (a : Bignum) : num (j + 1) a = num j a + (a j).toNat * 256 ^ j := value_succ j _

theorem num_lt_of_top {j : Nat} {a a' : Bignum} (top : a j < a' j) : num (j + 1) a < num (j + 1) a' :=
  value_lt_of_top (fun _ _ => UInt8.toNat_lt _) (UInt8.lt_iff_toNat_lt.mp top)

theorem cmp_eq_lt_iff (r m : Bignum) (nlen : Nat) : cmp r m nlen = .lt ↔ num nlen r < num nlen m := by
  induction nlen with
  | zero => exact iff_of_false (by rintro ⟨⟩) (Nat.lt_irrefl 0)
  | succ j ih =>
      rw [cmp]
      by_cases greater : r j > m j
      · rw [if_pos greater]
        exact iff_of_false (by rintro ⟨⟩) (Nat.lt_asymm (num_lt_of_top greater))
      · rw [if_neg greater]
        by_cases less : r j < m j
        · rw [if_pos less]
          exact iff_of_true rfl (num_lt_of_top less)
        · have same : r j = m j := UInt8.le_antisymm (UInt8.not_lt.mp greater) (UInt8.not_lt.mp less)
          rw [if_neg less, num_succ, num_succ, same, Nat.add_lt_add_iff_right]
          exact ih

/-- What the subtraction has done to the first digits. -/
structure Subtracted (m r : Bignum) (j : Nat) (s : Bignum × UInt16) : Prop where
  borrow : s.2.toNat ≤ 1
  low : num j s.1 + num j m = num j r + s.2.toNat * 256 ^ j
  high : ∀ i, j ≤ i → s.1 i = r i

theorem subByte (x y : UInt8) {borrow : UInt16} (small : borrow.toNat ≤ 1) :
    (((x.toUInt16 - y.toUInt16 - borrow) >>> 8) &&& 1).toNat ≤ 1 ∧
      (x.toUInt16 - y.toUInt16 - borrow).toUInt8.toNat + y.toNat + borrow.toNat =
        x.toNat + 256 * (((x.toUInt16 - y.toUInt16 - borrow) >>> 8) &&& 1).toNat := by
  have below := UInt8.toNat_lt x
  have below' := UInt8.toNat_lt y
  have difference : (x.toUInt16 - y.toUInt16 - borrow).toNat =
      (2 ^ 16 - borrow.toNat + (2 ^ 16 - y.toNat + x.toNat) % 2 ^ 16) % 2 ^ 16 := by
    rw [UInt16.toNat_sub, UInt16.toNat_sub, UInt8.toNat_toUInt16, UInt8.toNat_toUInt16]
  rw [UInt16.toNat_and, UInt16.toNat_shiftRight, UInt16.toNat_toUInt8, difference]
  have shift : (8 : UInt16).toNat % 16 = 8 := rfl
  have one : (1 : UInt16).toNat = 1 := rfl
  rw [shift, one, Nat.and_one_is_mod, Nat.shiftRight_eq_div_pow]
  omega

theorem subStep_spec {j : Nat} {s : Bignum × UInt16} (done : Subtracted m r j s) :
    Subtracted m r (j + 1) (subStep m s j) := by
  obtain ⟨isBorrow, exact⟩ := subByte (s.1 j) (m j) done.borrow
  refine ⟨isBorrow, ?_, fun i above => ?_⟩
  · have kept : num j (subStep m s j).1 = num j s.1 := num_congr fun i inside =>
      Function.update_of_ne (Nat.ne_of_lt inside) _ _
    have here : (subStep m s j).1 j = ((s.1 j).toUInt16 - (m j).toUInt16 - s.2).toUInt8 := Function.update_self _ _ _
    have same : s.1 j = r j := done.high j (Nat.le_refl j)
    have low := done.low
    rw [same] at exact here
    rw [num_succ, num_succ, num_succ, kept, here, pow_succ]
    calc num j s.1 + ((r j).toUInt16 - (m j).toUInt16 - s.2).toUInt8.toNat * 256 ^ j + (num j m + (m j).toNat * 256 ^ j)
        = num j s.1 + num j m +
            (((r j).toUInt16 - (m j).toUInt16 - s.2).toUInt8.toNat + (m j).toNat) * 256 ^ j := by ring
      _ = num j r + (((r j).toUInt16 - (m j).toUInt16 - s.2).toUInt8.toNat + (m j).toNat + s.2.toNat) * 256 ^ j := by
          rw [low]
          ring
      _ = num j r + (r j).toNat * 256 ^ j + (subStep m s j).2.toNat * (256 ^ j * 256) := by
          rw [exact, subStep, same]
          ring
  · exact (Function.update_of_ne (Nat.ne_of_gt above) _ _).trans (done.high i (Nat.le_of_succ_le above))

theorem subtract_done (nlen : Nat) (m r : Bignum) : Subtracted m r nlen ((List.range nlen).foldl (subStep m) (r, 0)) := by
  induction nlen with
  | zero => exact ⟨Nat.zero_le 1, by rw [pow_zero]; rfl, fun i _ => rfl⟩
  | succ j ih =>
      rw [List.range_succ, List.foldl_append]
      exact subStep_spec ih

/-- The difference, where there is one. -/
theorem num_subtract (enough : num nlen m ≤ num nlen r) : num nlen (subtract nlen m r) = num nlen r - num nlen m := by
  have done := subtract_done nlen m r
  have below := num_lt nlen (subtract nlen m r)
  have low : num nlen (subtract nlen m r) + num nlen m = _ := done.low
  rcases Nat.eq_zero_or_pos ((List.range nlen).foldl (subStep m) (r, 0)).2.toNat with none | some
  · rw [none, Nat.zero_mul] at low
    omega
  · have one : ((List.range nlen).foldl (subStep m) (r, 0)).2.toNat = 1 := Nat.le_antisymm done.borrow some
    rw [one, Nat.one_mul] at low
    omega

/-- With a modulus that is not zero, the reduction ends with the remainder. -/
theorem reduce_spec (positive : 0 < num nlen m) {fuel : Nat} (enough : num nlen r < fuel) :
    ∃ r', reduce nlen m fuel r = some r' ∧ num nlen r' = num nlen r % num nlen m := by
  induction fuel generalizing r with
  | zero => exact absurd enough (Nat.not_lt_zero _)
  | succ fuel ih =>
      rw [reduce]
      by_cases less : cmp r m nlen = .lt
      · rw [if_pos less]
        exact ⟨r, rfl, (Nat.mod_eq_of_lt ((cmp_eq_lt_iff r m nlen).mp less)).symm⟩
      · have atLeast : num nlen m ≤ num nlen r := Nat.not_lt.mp (mt (cmp_eq_lt_iff r m nlen).mpr less)
        have difference := num_subtract atLeast
        rw [if_neg less, Nat.mod_eq_sub_mod atLeast, ← difference]
        exact ih (by omega)

/-! ## Products -/

theorem mulRow_apply (r b tmp : Bignum) {j : Nat} (inside : j ≤ nlen) (c : Nat) :
    mulRow nlen r b tmp j c = if j ≤ c ∧ c < nlen then tmp c + r j * b (c - j) else tmp c := by
  have part : ∀ count, (List.range count).foldl
      (fun tmp k => Function.update tmp (j + k) (tmp (j + k) + r j * b k)) tmp c =
      if j ≤ c ∧ c < j + count then tmp c + r j * b (c - j) else tmp c := by
    intro count
    induction count with
    | zero => exact (if_neg (by omega)).symm
    | succ count ih =>
        rw [List.range_succ, List.foldl_append, List.foldl_cons, List.foldl_nil]
        by_cases here : c = j + count
        · rw [← here, Function.update_self, ih, if_neg (by omega), if_pos (by omega), here, Nat.add_sub_cancel_left]
        · rw [Function.update_of_ne here, ih]
          exact if_congr (by omega) rfl rfl
  rw [mulRow, part, Nat.add_sub_of_le inside]

/-- A column after some rows. -/
theorem rows_apply (r b : Bignum) {c : Nat} (inside : c < nlen) {rows : Nat} (some : rows ≤ nlen) :
    ((List.range rows).foldl (mulRow nlen r b) (fun _ => 0) c).toNat =
      (∑ j ∈ Finset.range (min rows (c + 1)), (r j).toNat * (b (c - j)).toNat) % 256 := by
  induction rows with
  | zero =>
      rw [Nat.zero_min, Finset.sum_range_zero]
      rfl
  | succ j ih =>
      rw [List.range_succ, List.foldl_append, List.foldl_cons, List.foldl_nil, mulRow_apply r b _ (by omega)]
      by_cases reaches : j ≤ c
      · have next : min (j + 1) (c + 1) = min j (c + 1) + 1 := by omega
        have last : min j (c + 1) = j := by omega
        rw [if_pos ⟨reaches, inside⟩, UInt8.toNat_add, UInt8.toNat_mul, ih (by omega), next, Finset.sum_range_succ, last]
        exact (Nat.add_mod _ _ _).symm
      · have same : min (j + 1) (c + 1) = min j (c + 1) := by omega
        rw [if_neg fun both => reaches both.1, ih (by omega), same]

/-- The bytes of the product are the columns, cut to a byte. -/
theorem multiply_apply (r b : Bignum) {c : Nat} (inside : c < nlen) :
    (multiply nlen r b c).toNat = column (num nlen r) (num nlen b) c % 256 := by
  have digits : ∀ (a : Bignum) {i : Nat}, i < nlen → digit (num nlen a) i = (a i).toNat := fun a _ inside =>
    digit_value (fun _ _ => UInt8.toNat_lt _) inside
  rw [multiply, rows_apply r b inside (Nat.le_refl nlen), Nat.min_eq_right inside, column]
  refine congrArg (· % 256) (Finset.sum_congr rfl fun j upTo => ?_)
  have early := Finset.mem_range.mp upTo
  rw [digits r (by omega), digits b (by omega)]

/-- The product is right just where there are no carries. -/
theorem num_multiply_iff :
    num nlen (multiply nlen r b) = num nlen r * num nlen b ↔ NoCarry nlen (num nlen r) (num nlen b) := by
  have cut : num nlen (multiply nlen r b) = value nlen fun c => column (num nlen r) (num nlen b) c % 256 :=
    value_congr fun _ inside => multiply_apply r b inside
  rw [cut, value_cut_iff (num_lt nlen r) (num_lt nlen b)]

/-! ## Powers -/

theorem mod_pow_succ (e i : Nat) : e % 2 ^ (i + 1) = e % 2 ^ i + 2 ^ i * (e.testBit i).toNat := by
  rw [pow_succ, Nat.mod_mul, Nat.toNat_testBit]

/-- The products that square and multiply needs have no carries: those with the powers for the bits of the exponent
that are set, and the squares up to the highest one. -/
structure CarryFree (nlen n base e : Nat) : Prop where
  multiply : ∀ i, e.testBit i = true → NoCarry nlen (base ^ (e % 2 ^ i) % n) (base ^ 2 ^ i % n)
  square : ∀ i, 2 ^ (i + 1) ≤ e → NoCarry nlen (base ^ 2 ^ i % n) (base ^ 2 ^ i % n)

/-- What the loop has after the rounds for some bits. -/
structure Powers (nlen n base e i : Nat) (s : Bignum × Bignum) : Prop where
  result : num nlen s.1 = base ^ (e % 2 ^ i) % n
  power : 2 ^ i ≤ e → num nlen s.2 = base ^ 2 ^ i % n

theorem modexpStep_spec {n base e i fuel : Nat} {s : Bignum × Bignum} (isMod : num nlen m = n) (positive : 0 < n)
    (enough : 256 ^ nlen ≤ fuel) (free : CarryFree nlen n base e) (powers : Powers nlen n base e i s) :
    ∃ s', modexpStep nlen fuel m (e.testBit i) s = some s' ∧ Powers nlen n base e (i + 1) s' := by
  have reduces : ∀ a, ∃ a', reduce nlen m fuel a = some a' ∧ num nlen a' = num nlen a % n := by
    intro a
    rw [← isMod]
    exact reduce_spec (isMod ▸ positive) (Nat.lt_of_lt_of_le (num_lt nlen a) enough)
  obtain ⟨b', squares, square⟩ := reduces (multiply nlen s.2 s.2)
  have power : 2 ^ (i + 1) ≤ e → num nlen b' = base ^ 2 ^ (i + 1) % n := by
    intro needed
    have known := powers.power (Nat.le_trans (Nat.pow_le_pow_right (by decide) (Nat.le_succ i)) needed)
    have noCarry := free.square i needed
    rw [← known] at noCarry
    rw [square, num_multiply_iff.mpr noCarry, known, ← Nat.mul_mod, ← pow_add, pow_succ, Nat.mul_two]
  cases bit : e.testBit i with
  | false =>
      refine ⟨(s.1, b'), ?_, ?_, power⟩
      · simp only [modexpStep, squares]
        rfl
      · rw [powers.result, mod_pow_succ, bit]
        rfl
  | true =>
      obtain ⟨r', multiplies, product⟩ := reduces (multiply nlen s.1 s.2)
      have known := powers.power (Nat.ge_two_pow_of_testBit bit)
      have noCarry := free.multiply i bit
      rw [← known, ← powers.result] at noCarry
      refine ⟨(r', b'), ?_, ?_, power⟩
      · simp only [modexpStep, multiplies, squares]
        rfl
      · rw [product, num_multiply_iff.mpr noCarry, known, powers.result, ← Nat.mul_mod, ← pow_add, mod_pow_succ, bit,
          Bool.toNat_true, Nat.mul_one]

/-- The number in the bytes that are copied in reverse. -/
theorem num_reversed (bytes : List UInt8) : num bytes.length (reversed bytes bytes.length) = ofBytes bytes :=
  value_reversed bytes

theorem expBit_eq {exp : List UInt8} {elen i : Nat} (inside : elen ≤ exp.length) (early : i < elen * 8) :
    expBit exp elen i = (ofBytes (exp.take elen)).testBit i := by
  have length : (exp.take elen).length = elen := List.length_take_of_le inside
  have byte : digit (ofBytes (exp.take elen)) (i / 8) = (exp.getD (elen - 1 - i / 8) 0).toNat := by
    rw [← num_reversed, num, length, digit_value (fun _ _ => UInt8.toNat_lt _) (by omega), reversed, List.getD_eq_getElem?_getD,
      List.getElem?_take_of_lt (by omega), List.getD_eq_getElem?_getD]
  have bit : (digit (ofBytes (exp.take elen)) (i / 8)).testBit (i % 8) = (ofBytes (exp.take elen)).testBit i := by
    have power : 256 ^ (i / 8) = 2 ^ (8 * (i / 8)) := (pow_mul 2 8 (i / 8)).symm
    rw [digit, power, show 256 = 2 ^ 8 from rfl, Nat.testBit_mod_two_pow, Nat.testBit_div_two_pow,
      decide_eq_true (Nat.mod_lt i (by decide)), Bool.true_and, Nat.mod_add_div]
  rw [← bit, byte, Nat.testBit_eq_decide_div_mod_eq, expBit]

theorem num_one (nlen : Nat) (some : 1 < 256 ^ nlen) : num nlen (Function.update (fun _ => 0) 0 1) = 1 := by
  have nonzero : nlen ≠ 0 := by
    rintro rfl
    exact absurd some (by decide)
  obtain ⟨nlen, rfl⟩ := Nat.exists_eq_succ_of_ne_zero nonzero
  rw [num, value, Finset.sum_range_succ', pow_zero, Nat.mul_one, Function.update_self, Finset.sum_eq_zero]
  · rfl
  · intro i _
    rw [Function.update_of_ne (Nat.succ_ne_zero i)]
    exact Nat.zero_mul _

theorem loop_spec {nlen n base fuel : Nat} {m b : Bignum} {exp : List UInt8} {elen : Nat} (inside : elen ≤ exp.length)
    (isMod : num nlen m = n) (isBase : num nlen b = base) (big : 1 < n) (below : base < n)
    (enough : 256 ^ nlen ≤ fuel) (free : CarryFree nlen n base (ofBytes (exp.take elen))) {count : Nat}
    (some : count ≤ elen * 8) :
    ∃ s, (List.range count).foldlM (fun s i => modexpStep nlen fuel m (expBit exp elen i) s)
      (Function.update (fun _ => 0) 0 1, b) = .some s ∧ Powers nlen n base (ofBytes (exp.take elen)) count s := by
  induction count with
  | zero =>
      refine ⟨_, rfl, ?_, fun _ => ?_⟩
      · rw [pow_zero, Nat.mod_one, pow_zero, Nat.mod_eq_of_lt big]
        exact num_one nlen (Nat.lt_of_lt_of_le big (Nat.le_of_lt (isMod ▸ num_lt nlen m)))
      · rw [isBase, pow_zero, pow_one, Nat.mod_eq_of_lt below]
  | succ i ih =>
      obtain ⟨s, run, powers⟩ := ih (Nat.le_of_succ_le some)
      obtain ⟨s', step, powers'⟩ := modexpStep_spec isMod (Nat.zero_lt_of_lt big) enough free powers
      refine ⟨s', ?_, powers'⟩
      rw [← expBit_eq inside some] at step
      rw [List.range_succ, List.foldlM_append, run]
      simp only [Option.bind_eq_bind, Option.bind_some, List.foldlM_cons, List.foldlM_nil, step]
      rfl

/-- `_bignum_modexp` takes the right power when no product that it needs has a carry. -/
theorem bignumModexp_eq {base exp mod : List UInt8} {elen fuel : Nat} (inside : elen ≤ exp.length)
    (sameLength : base.length = mod.length) (big : 1 < ofBytes mod) (below : ofBytes base < ofBytes mod)
    (enough : 256 ^ mod.length ≤ fuel)
    (free : CarryFree mod.length (ofBytes mod) (ofBytes base) (ofBytes (exp.take elen))) :
    ∃ out, bignumModexp fuel base exp elen mod mod.length = some out ∧ out.length = mod.length ∧
      ofBytes out = ofBytes base ^ ofBytes (exp.take elen) % ofBytes mod := by
  have isBase : num mod.length (reversed base mod.length) = ofBytes base := sameLength ▸ num_reversed base
  obtain ⟨s, run, powers⟩ := loop_spec inside (num_reversed mod) isBase big below enough free (Nat.le_refl (elen * 8))
  have length : ((List.range mod.length).map fun i => s.1 (mod.length - 1 - i)).length = mod.length := by
    rw [List.length_map, List.length_range]
  refine ⟨_, by rw [bignumModexp, run]; rfl, length, ?_⟩
  have whole : ofBytes (exp.take elen) < 2 ^ (elen * 8) := by
    have bound := ofBytes_lt (exp.take elen)
    rwa [List.length_take_of_le inside, show 256 = 2 ^ 8 from rfl, ← pow_mul, Nat.mul_comm] at bound
  rw [← value_reversed, length, ← Nat.mod_eq_of_lt whole, ← powers.result]
  refine value_congr fun i early => ?_
  rw [List.getD_eq_getElem _ _ (by omega), List.getElem_map, List.getElem_range]
  exact congrArg (fun k => (s.1 k).toNat) (by omega)

/-- The secret is encrypted with the exponent that is passed on. -/
theorem rsaPkcs1Encrypt_eq {pub : RsaPubKey} {ps pms : List UInt8} {fuel : Nat}
    (room : pms.length + 11 ≤ pub.n.length) (padding : ps.length = pub.n.length - pms.length - 3)
    (inside : pub.elen ≤ pub.e.length) (big : 1 < ofBytes pub.n) (below : ofBytes (paddedSecret ps pms) < ofBytes pub.n)
    (enough : 256 ^ pub.n.length ≤ fuel)
    (free : CarryFree pub.n.length (ofBytes pub.n) (ofBytes (paddedSecret ps pms)) (ofBytes (pub.e.take pub.elen))) :
    ∃ out, rsaPkcs1Encrypt fuel pub ps pms = some ((pub.n.length : Int), out) ∧
      ofBytes out = ofBytes (paddedSecret ps pms) ^ ofBytes (pub.e.take pub.elen) % ofBytes pub.n := by
  have length : (paddedSecret ps pms).length = pub.n.length := by
    simp only [paddedSecret, List.length_append, List.length_cons, List.length_nil, padding]
    omega
  obtain ⟨out, run, -, power⟩ := bignumModexp_eq inside length big below enough free
  exact ⟨out, by rw [rsaPkcs1Encrypt, if_neg (Nat.not_lt.mpr room), run]; rfl, power⟩

end Systrix.Tls
