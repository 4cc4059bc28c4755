import Systrix.Libc.Printf

/-!
# The SENC character encoding

Codepoints of one or two bytes, as in `include/senc.h`.  Both bytes of a pair have the high bit, so a text can only be
decoded from its start.  A text is an array of bytes that a NUL ends, and `none` stands for a read behind the array or
for a loop that has no fuel left.
-/

namespace Systrix.Libc

def sencAsciiMax : Nat := 0x7F

def sencCpMax : Nat := 0x3FFF

/-- `senc_encode`: the bytes that are written. -/
def sencEncode (cp : Nat) : List UInt8 :=
  if cp ≤ sencAsciiMax then [UInt8.ofNat cp]
  else if cp ≤ sencCpMax then [UInt8.ofNat (0x80 ||| cp >>> 7), UInt8.ofNat (0x80 ||| (cp &&& 0x7F))]
  else []

/-- `senc_decode`: the codepoint and the number of bytes. -/
def sencDecode (s : List UInt8) : Option (Nat × Nat) := do
  let s0 ← s[0]?
  if s0 &&& 0x80 = 0 then return (s0.toNat, 1)
  let s1 ← s[1]?
  if s1 ≠ 0 ∧ s1 &&& 0x80 ≠ 0 then return ((s0 &&& 0x7F).toNat <<< 7 ||| (s1 &&& 0x7F).toNat, 2)
  return ('?'.toNat, 1)

/-- `senc_next`: the end of the text, or a codepoint and the bytes behind it. -/
def sencNext (s : List UInt8) : Option (Option (Nat × List UInt8)) := do
  let s0 ← s[0]?
  if s0 = 0 then return none
  let (cp, n) ← sencDecode s
  return some (cp, s.drop n)

/-- `while ((p = senc_next(p, &cp)))`: the codepoints. -/
def sencIterate : (fuel : Nat) → List UInt8 → Option (List Nat)
  | 0, _ => none
  | fuel + 1, s => do
      match ← sencNext s with
      | none => return []
      | some (cp, rest) => return cp :: (← sencIterate fuel rest)

/-- The loop of `senc_strlen`, which counts in an `int`. -/
def sencStrlenLoop : (fuel : Nat) → List UInt8 → (n : Int) → Option Int
  | 0, _, _ => none
  | fuel + 1, s, n => do
      match ← sencNext s with
      | none => return n
      | some (_, rest) => sencStrlenLoop fuel rest (wrapInt (n + 1))

def sencStrlen (fuel : Nat) (s : List UInt8) : Option Int := sencStrlenLoop fuel s 0

/-! ## One codepoint -/

/-- The codepoints that a text can contain. -/
def IsCodepoint (cp : Nat) : Prop := 1 ≤ cp ∧ cp ≤ sencCpMax

theorem high_bit_bytes : ∀ n < 256, (UInt8.ofNat n &&& 0x80 = 0 ↔ n < 0x80) := by decide +kernel

theorem high_or_bytes : ∀ n < 0x80, 0x80 ||| n = 0x80 + n := by decide +kernel

theorem high_bit_iff (b : UInt8) : b &&& 0x80 = 0 ↔ b.toNat < 0x80 := by
  have all := high_bit_bytes b.toNat b.toNat_lt
  rwa [UInt8.ofNat_toNat] at all

theorem toNat_high_or {n : Nat} (small : n < 0x80) : (UInt8.ofNat (0x80 ||| n)).toNat = 0x80 + n := by
  rw [high_or_bytes n small, UInt8.toNat_ofNat']
  omega

theorem low_bits_high_or {n : Nat} (small : n < 0x80) : (UInt8.ofNat (0x80 ||| n) &&& 0x7F).toNat = n := by
  rw [UInt8.toNat_and, toNat_high_or small, show (0x7F : UInt8).toNat = 2 ^ 7 - 1 from rfl,
    Nat.and_two_pow_sub_one_eq_mod]
  omega

theorem high_or_ne_zero {n : Nat} (small : n < 0x80) : UInt8.ofNat (0x80 ||| n) ≠ 0 := fun zero => by
  have value := toNat_high_or small
  rw [zero] at value
  exact absurd value (by simp; omega)

theorem high_or_bit {n : Nat} (small : n < 0x80) : UInt8.ofNat (0x80 ||| n) &&& 0x80 ≠ 0 := fun zero => by
  have value := toNat_high_or small
  have low := (high_bit_iff _).mp zero
  omega

theorem sencNext_pair {a b : UInt8} (first : a ≠ 0) (high : a &&& 0x80 ≠ 0) (pair : b ≠ 0 ∧ b &&& 0x80 ≠ 0)
    (rest : List UInt8) :
    sencNext (a :: b :: rest) = some (some ((a &&& 0x7F).toNat <<< 7 ||| (b &&& 0x7F).toNat, rest)) := by
  simp [sencNext, sencDecode, first, high, pair]

/-- The first step over an encoded codepoint gives the codepoint. -/
theorem sencNext_encode {cp : Nat} (valid : IsCodepoint cp) (rest : List UInt8) :
    sencNext (sencEncode cp ++ rest) = some (some (cp, rest)) := by
  obtain ⟨positive, bounded⟩ := valid
  have small : cp < 2 ^ 14 := Nat.lt_of_le_of_lt bounded (by decide)
  by_cases ascii : cp ≤ sencAsciiMax
  · have value : (UInt8.ofNat cp).toNat = cp := by
      unfold sencAsciiMax at ascii
      rw [UInt8.toNat_ofNat']
      omega
    have nonzero : UInt8.ofNat cp ≠ 0 := fun zero => by
      rw [zero] at value
      exact absurd value (by simp; omega)
    have low : UInt8.ofNat cp &&& 0x80 = 0 := (high_bit_iff _).mpr (by
      unfold sencAsciiMax at ascii
      omega)
    rw [sencEncode, if_pos ascii, List.singleton_append]
    simp [sencNext, sencDecode, nonzero, low, value]
  · have first : cp >>> 7 < 0x80 := by
      rw [Nat.shiftRight_eq_div_pow]
      omega
    have second : cp &&& 0x7F < 0x80 := Nat.lt_of_le_of_lt Nat.and_le_right (by decide)
    have whole : (cp >>> 7) <<< 7 ||| (cp &&& 0x7F) = cp := by
      rw [← Nat.shiftLeft_add_eq_or_of_lt second, Nat.shiftLeft_eq, Nat.shiftRight_eq_div_pow,
        show 0x7F = 2 ^ 7 - 1 from rfl, Nat.and_two_pow_sub_one_eq_mod]
      omega
    rw [sencEncode, if_neg ascii, if_pos bounded]
    have found := sencNext_pair (high_or_ne_zero first) (high_or_bit first)
      ⟨high_or_ne_zero second, high_or_bit second⟩ rest
    rw [low_bits_high_or first, low_bits_high_or second, whole] at found
    exact found

/-! ## Texts -/

/-- The text of a list of codepoints. -/
def sencText (cps : List Nat) : List UInt8 := cps.flatMap sencEncode ++ [0]

theorem sencText_cons (cp : Nat) (cps : List Nat) : sencText (cp :: cps) = sencEncode cp ++ sencText cps := by
  rw [sencText, List.flatMap_cons, List.append_assoc]
  rfl

theorem sencIterate_text {cps : List Nat} (valid : ∀ cp ∈ cps, IsCodepoint cp) (fuel : Nat) (enough : cps.length < fuel) :
    sencIterate fuel (sencText cps) = some cps := by
  induction cps generalizing fuel with
  | nil =>
    obtain ⟨fuel, rfl⟩ := Nat.exists_eq_add_of_lt enough
    rfl
  | cons cp cps ih =>
    obtain ⟨fuel, rfl⟩ : ∃ n, fuel = n + 1 := ⟨fuel - 1, by simp at enough; omega⟩
    have next := sencNext_encode (valid cp List.mem_cons_self) (sencText cps)
    have rest := ih (fun other member => valid other (List.mem_cons_of_mem _ member)) fuel (Nat.lt_of_succ_lt_succ enough)
    rw [sencText_cons, sencIterate, next]
    simp [rest]

theorem sencText_injective {cps others : List Nat} (valid : ∀ cp ∈ cps, IsCodepoint cp)
    (validOthers : ∀ cp ∈ others, IsCodepoint cp) (same : cps.flatMap sencEncode = others.flatMap sencEncode) :
    cps = others := by
  have text : sencText cps = sencText others := by rw [sencText, same, sencText]
  have first := sencIterate_text valid (cps.length + others.length + 1) (by omega)
  have second := sencIterate_text validOthers (cps.length + others.length + 1) (by omega)
  rw [text, second] at first
  exact (Option.some.inj first).symm

theorem wrapInt_add (a b : Int) : wrapInt (wrapInt a + b) = wrapInt (a + b) := Int.bmod_add_bmod

/-- `senc_strlen` counts the codepoints of the iteration. -/
theorem sencStrlenLoop_eq (fuel : Nat) (s : List UInt8) (n : Int) :
    sencStrlenLoop fuel s (wrapInt n) = (sencIterate fuel s).map fun cps => wrapInt (n + cps.length) := by
  induction fuel generalizing s n with
  | zero => rfl
  | succ fuel ih =>
    rw [sencStrlenLoop, sencIterate]
    cases step : sencNext s with
    | none => rfl
    | some next =>
      cases next with
      | none => simp
      | some found =>
        obtain ⟨cp, rest⟩ := found
        simp only [Option.bind_eq_bind, Option.bind_some]
        rw [wrapInt_add, ih]
        cases sencIterate fuel rest with
        | none => rfl
        | some cps =>
          simp only [Option.map_some, Option.bind_some]
          rw [Int.add_assoc, Int.add_comm 1]
          rfl

theorem sencStrlen_text {cps : List Nat} (valid : ∀ cp ∈ cps, IsCodepoint cp) {fuel : Nat} (enough : cps.length < fuel) :
    sencStrlen fuel (sencText cps) = some (wrapInt cps.length) := by
  have zero : (0 : Int) = wrapInt 0 := rfl
  rw [sencStrlen, zero, sencStrlenLoop_eq, sencIterate_text valid fuel enough, Option.map_some, Int.zero_add]

theorem wrapInt_nat_iff (n : Nat) : wrapInt n = n ↔ n < 2 ^ 31 := by
  unfold wrapInt
  rw [Int.bmod_def]
  split <;> omega

/-! ## Any bytes -/

/-- A step over any text takes a byte or two in front of its end. -/
theorem sencNext_bytes {c : UInt8} (text : List UInt8) (nonzero : c ≠ 0) :
    ∃ cp n, sencNext (c :: text ++ [0]) = some (some (cp, text.drop n ++ [0])) := by
  by_cases low : c &&& 0x80 = 0
  · exact ⟨c.toNat, 0, by simp [sencNext, sencDecode, nonzero, low]⟩
  · cases text with
    | nil => exact ⟨'?'.toNat, 0, by simp [sencNext, sencDecode, nonzero, low]⟩
    | cons d text =>
      by_cases pair : d ≠ 0 ∧ d &&& 0x80 ≠ 0
      · refine ⟨(c &&& 0x7F).toNat <<< 7 ||| (d &&& 0x7F).toNat, 1, ?_⟩
        rw [List.drop_succ_cons, List.drop_zero, List.cons_append, List.cons_append]
        exact sencNext_pair nonzero low pair (text ++ [0])
      · refine ⟨'?'.toNat, 0, ?_⟩
        simp only [sencNext, sencDecode, List.cons_append, List.getElem?_cons_zero, List.getElem?_cons_succ,
          Option.bind_eq_bind, Option.bind_some, if_neg nonzero, if_neg low, if_neg pair]
        rfl

/-- Over any text the iteration ends, and it reads nothing behind the NUL. -/
theorem sencIterate_bytes {text : List UInt8} (nonzero : 0 ∉ text) {fuel : Nat} (enough : text.length < fuel) :
    ∃ cps, sencIterate fuel (text ++ [0]) = some cps := by
  induction fuel generalizing text with
  | zero => exact absurd enough (Nat.not_lt_zero _)
  | succ fuel ih =>
    cases text with
    | nil => exact ⟨[], rfl⟩
    | cons c text =>
      obtain ⟨other, free⟩ := not_or.mp (mt List.mem_cons.mpr nonzero)
      obtain ⟨cp, n, next⟩ := sencNext_bytes text (Ne.symm other)
      obtain ⟨cps, rest⟩ := ih (fun member => free (List.mem_of_mem_drop member)) (by
        rw [List.length_drop]
        simp only [List.length_cons] at enough
        omega : (text.drop n).length < fuel)
      refine ⟨cp :: cps, ?_⟩
      rw [sencIterate, next]
      simp [rest]

/-! ## The contract -/

/-- What the encoding promises for a list of codepoints and for a text of bytes. -/
structure SencOk (cps : List Nat) (text : List UInt8) : Prop where
  iterates : ∀ fuel, cps.length < fuel → sencIterate fuel (sencText cps) = some cps
  counts : ∀ fuel, cps.length < fuel → sencStrlen fuel (sencText cps) = some (cps.length : Int)
  injective : ∀ others : List Nat, (∀ cp ∈ others, IsCodepoint cp) →
    cps.flatMap sencEncode = others.flatMap sencEncode → cps = others
  stops : ∀ fuel, text.length < fuel → ∃ found, sencIterate fuel (text ++ [0]) = some found

/-- The promise holds exactly if `senc_strlen` can count the codepoints in an `int`. -/
theorem senc_iff {cps : List Nat} {text : List UInt8} (valid : ∀ cp ∈ cps, IsCodepoint cp) (nonzero : 0 ∉ text) :
    SencOk cps text ↔ cps.length < 2 ^ 31 := by
  constructor
  · intro ok
    have counted := ok.counts (cps.length + 1) (Nat.lt_succ_self _)
    rw [sencStrlen_text valid (Nat.lt_succ_self _)] at counted
    exact (wrapInt_nat_iff _).mp (Option.some.inj counted)
  · intro small
    exact {
      iterates := fun fuel enough => sencIterate_text valid fuel enough
      counts := fun fuel enough => by rw [sencStrlen_text valid enough, (wrapInt_nat_iff _).mpr small]
      injective := fun others validOthers same => sencText_injective valid validOthers same
      stops := fun fuel enough => sencIterate_bytes nonzero enough
    }

/-- One character of each size, and a text that breaks off within a pair. -/
theorem senc_iff_pair : SencOk [0x41, 0x8F] [0x41, 0x81] ↔ 2 < 2 ^ 31 :=
  senc_iff (by unfold IsCodepoint; decide) (by decide)

/-- 2^31 letters: `senc_strlen` returns a negative number. -/
theorem senc_fails : ¬SencOk (List.replicate (2 ^ 31) 0x41) [] := by
  intro ok
  have valid : ∀ cp ∈ List.replicate (2 ^ 31) 0x41, IsCodepoint cp := fun cp member => by
    rw [List.eq_of_mem_replicate member]
    unfold IsCodepoint
    decide
  have counted := ok.counts (2 ^ 31 + 1) (by rw [List.length_replicate]; omega)
  rw [sencStrlen_text valid (by rw [List.length_replicate]; omega), List.length_replicate] at counted
  exact absurd (Option.some.inj counted) (by decide)

end Systrix.Libc
