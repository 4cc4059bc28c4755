import Mathlib.Data.Finset.SymmDiff
import Systrix.Lib.BitWords
import Systrix.Lib.Lanes
import Systrix.Lib.Machine
import Systrix.Lib.Run

/-!
# The bitmap of the C library

`slibc_bm_*` of `libc/systrix_libc.c`, where `none` stands for an access behind the array of words, against
a finite set of numbers below the size of the bitmap.
-/

namespace Systrix.Libc

open BitWords Machine

/-! ## Bits of a word -/

def slibcPopcount (v : BitVec 64) : Nat :=
  let v := v - ((v >>> 1) &&& 0x5555555555555555#64)
  let v := (v &&& 0x3333333333333333#64) + ((v >>> 2) &&& 0x3333333333333333#64)
  let v := (v + (v >>> 4)) &&& 0x0f0f0f0f0f0f0f0f#64
  ((v * 0x0101010101010101#64) >>> 56).toNat

def slibcCtz (v : BitVec 64) : Nat := if v = 0 then 64 else ctz v

/-- `(uint64_t)1 << (bit % 64)` -/
def bitMask (bit : Nat) : BitVec 64 := 1#64 <<< (bit % 64)

/-! ## The operations -/

/-- `SBitmap` -/
structure SBitmap where
  words : List (BitVec 64)
  nbits : Nat

namespace SBitmap

/-- `(nbits + 63) / 64` -/
def wordsFor (nbits : Nat) : Nat := u64 (nbits + 63) / 64

/-- `memset(words, byte, nw * 8)`, with the byte repeated in `value` -/
def memsetWords (words : List (BitVec 64)) (value : BitVec 64) (nw : Nat) : Option (List (BitVec 64)) :=
  if nw ≤ words.length then some (List.replicate nw value ++ words.drop nw) else none

/-- `slibc_bm_init` -/
def bmInit (words : List (BitVec 64)) (nbits : Nat) : Option SBitmap := do
  let words ← memsetWords words 0 (wordsFor nbits)
  return ⟨words, nbits⟩

/-- `bm->words[bit / 64]` is changed. -/
def modifyWord (bm : SBitmap) (bit : Nat) (f : BitVec 64 → BitVec 64) : Option SBitmap := do
  let w ← bm.words[bit / 64]?
  return { bm with words := bm.words.set (bit / 64) (f w) }

/-- `slibc_bm_set` -/
def bmSet (bm : SBitmap) (bit : Nat) : Option SBitmap := bm.modifyWord bit (· ||| bitMask bit)

/-- `slibc_bm_clear` -/
def bmClear (bm : SBitmap) (bit : Nat) : Option SBitmap := bm.modifyWord bit (· &&& ~~~bitMask bit)

/-- `slibc_bm_toggle` -/
def bmToggle (bm : SBitmap) (bit : Nat) : Option SBitmap := bm.modifyWord bit (· ^^^ bitMask bit)

/-- `slibc_bm_test` -/
def bmTest (bm : SBitmap) (bit : Nat) : Option Bool := do
  let w ← bm.words[bit / 64]?
  return (w &&& bitMask bit) ≠ 0

/-- `slibc_bm_zero` -/
def bmZero (bm : SBitmap) : Option SBitmap := do
  let words ← memsetWords bm.words 0 (wordsFor bm.nbits)
  return { bm with words := words }

/-- `slibc_bm_fill` -/
def bmFill (bm : SBitmap) : Option SBitmap := do
  let nw := wordsFor bm.nbits
  let words ← memsetWords bm.words (BitVec.allOnes 64) nw
  if bm.nbits % 64 ≠ 0 then
    if nw - 1 < words.length then
      return { bm with words := words.set (nw - 1) ((1#64 <<< (bm.nbits % 64)) - 1) }
    else none
  else return { bm with words := words }

/-- The loop of `slibc_bm_first_set`. -/
def firstSetFrom (bm : SBitmap) (b : Nat) : Option Nat :=
  if b < bm.nbits then do
    let w := (← bm.words[b / 64]?) >>> (b % 64)
    if w ≠ 0 then return b + slibcCtz w
    else firstSetFrom bm ((b / 64 + 1) * 64)
  else some bm.nbits
termination_by bm.nbits - b
decreasing_by omega

/-- `slibc_bm_first_set` -/
def bmFirstSet (bm : SBitmap) (start : Nat) : Option Nat := bm.firstSetFrom start

/-- The loop of `slibc_bm_first_clear`. -/
def firstClearFrom (bm : SBitmap) (b : Nat) : Option Nat :=
  if b < bm.nbits then do
    let w := (~~~(← bm.words[b / 64]?)) >>> (b % 64)
    if w ≠ 0 then
      let found := b + slibcCtz w
      return if found < bm.nbits then found else bm.nbits
    else firstClearFrom bm ((b / 64 + 1) * 64)
  else some bm.nbits
termination_by bm.nbits - b
decreasing_by omega

/-- `slibc_bm_first_clear` -/
def bmFirstClear (bm : SBitmap) (start : Nat) : Option Nat := bm.firstClearFrom start

/-- `slibc_bm_count_set` -/
def bmCountSet (bm : SBitmap) : Option Nat :=
  (List.range (wordsFor bm.nbits)).foldlM (fun n i => do return n + slibcPopcount (← bm.words[i]?)) 0

end SBitmap

/-! ## The bits that an operation leaves -/

theorem getLsbD_bitMask (bit : Nat) {k : Nat} (inside : k < 64) : (bitMask bit).getLsbD k = decide (k = bit % 64) := by
  unfold bitMask
  rw [BitVec.getLsbD_shiftLeft, BitVec.getLsbD_one]
  by_cases below : k < bit % 64
  · simp [below, Nat.ne_of_lt below]
  · have same : k - bit % 64 = 0 ↔ k = bit % 64 := by omega
    simp [inside, below, same]

theorem and_bitMask (w : BitVec 64) (bit : Nat) : w &&& bitMask bit ≠ 0 ↔ w.getLsbD (bit % 64) = true := by
  have inside : bit % 64 < 64 := Nat.mod_lt _ (by decide)
  constructor
  · intro real
    obtain ⟨-, isOne, -⟩ := ctz_spec real
    have place : ctz (w &&& bitMask bit) < 64 := BitVec.lt_of_getLsbD isOne
    rw [BitVec.getLsbD_and, getLsbD_bitMask bit place, Bool.and_eq_true, decide_eq_true_iff] at isOne
    rw [← isOne.2]
    exact isOne.1
  · intro isOne zero
    have none := congrArg (BitVec.getLsbD · (bit % 64)) zero
    rw [BitVec.getLsbD_and, getLsbD_bitMask bit inside, isOne] at none
    simp at none

namespace SBitmap

/-- The bitmap has the given size, its words hold the bits of the set, and there are no ones behind the last bit. -/
structure Holds (bm : SBitmap) (nbits : Nat) (members : Finset Nat) : Prop where
  size : bm.nbits = nbits
  stored : bm.words.length = (nbits + 63) / 64
  fits : nbits + 63 < 2 ^ 64
  bits : ∀ i, bit bm.words i = decide (i ∈ members)
  inside : ∀ i ∈ members, i < nbits

variable {bm : SBitmap} {nbits : Nat} {members : Finset Nat}

theorem wordsFor_of_fits (fits : nbits + 63 < 2 ^ 64) : wordsFor nbits = (nbits + 63) / 64 := by
  rw [wordsFor, u64_of_lt fits]

/-- An array that is filled whole. -/
theorem memsetWords_all {words : List (BitVec 64)} {nw : Nat} (stored : words.length = nw) (value : BitVec 64) :
    memsetWords words value nw = some (List.replicate nw value) := by
  rw [memsetWords, if_pos (Nat.le_of_eq stored.symm), List.drop_eq_nil_of_le (Nat.le_of_eq stored), List.append_nil]

theorem bit_replicate (nw : Nat) (value : BitVec 64) {i : Nat} (inside : i / 64 < nw) :
    bit (List.replicate nw value) i = value.getLsbD (i % 64) :=
  bit_eq (List.getElem?_replicate_of_lt inside)

theorem bit_replicate_zero (nw i : Nat) : bit (List.replicate nw (0 : BitVec 64)) i = false := by
  by_cases inside : i / 64 < nw
  · rw [bit_replicate nw 0 inside]
    exact BitVec.getLsbD_zero
  · exact bit_of_length_le (Nat.le_trans (Nat.le_of_eq List.length_replicate) (Nat.not_lt.mp inside))

theorem holds_empty {words : List (BitVec 64)} (stored : words.length = (nbits + 63) / 64)
    (fits : nbits + 63 < 2 ^ 64) :
    ∃ bm, bmInit words nbits = some bm ∧ bm.Holds nbits ∅ := by
  refine ⟨⟨List.replicate ((nbits + 63) / 64) 0, nbits⟩, ?_, rfl, List.length_replicate, fits, fun i => ?_, ?_⟩
  · rw [bmInit, wordsFor_of_fits fits, memsetWords_all stored]
    rfl
  · exact bit_replicate_zero _ i
  · exact fun i none => absurd none (Finset.notMem_empty i)

theorem Holds.word (holds : bm.Holds nbits members) {i : Nat} (inside : i < nbits) :
    ∃ w, bm.words[i / 64]? = some w := by
  have stored := holds.stored
  exact ⟨_, List.getElem?_eq_getElem (by omega)⟩

/-- A change of one bit of a word is a change of one bit of the bitmap. -/
theorem Holds.modify (holds : bm.Holds nbits members) {b : Nat} (inside : b < nbits) {f : BitVec 64 → BitVec 64}
    {g : Bool → Bool}
    (one : ∀ w : BitVec 64, ∀ k < 64, (f w).getLsbD k = if k = b % 64 then g (w.getLsbD k) else w.getLsbD k)
    {members' : Finset Nat} (set : ∀ i, decide (i ∈ members') = if i = b then g (decide (i ∈ members)) else
      decide (i ∈ members)) : ∃ bm', bm.modifyWord b f = some bm' ∧ bm'.Holds nbits members' := by
  obtain ⟨w, found⟩ := holds.word inside
  have place : b / 64 < bm.words.length := (List.getElem?_eq_some_iff.mp found).1
  refine ⟨{ bm with words := bm.words.set (b / 64) (f w) }, ?_, holds.size, ?_, holds.fits, fun i => ?_,
    fun i member => ?_⟩
  · rw [modifyWord, found]
    rfl
  · exact List.length_set.trans holds.stored
  · rw [bit_set place, set i]
    by_cases same : i / 64 = b / 64
    · have found' : bm.words[i / 64]? = some w := by rw [same]; exact found
      have sameBit : i % 64 = b % 64 ↔ i = b := by omega
      rw [if_pos same, one w (i % 64) (Nat.mod_lt _ (by decide)), ← bit_eq found', holds.bits i]
      simp only [sameBit]
    · have other : i ≠ b := fun isBit => same (isBit ▸ rfl)
      rw [if_neg same, if_neg other, holds.bits i]
  · have isMember : decide (i ∈ members') = true := decide_eq_true member
    rw [set i] at isMember
    by_cases isBit : i = b
    · exact isBit ▸ inside
    · rw [if_neg isBit] at isMember
      exact holds.inside i (of_decide_eq_true isMember)

theorem Holds.set (holds : bm.Holds nbits members) {b : Nat} (inside : b < nbits) :
    ∃ bm', bm.bmSet b = some bm' ∧ bm'.Holds nbits (insert b members) := by
  refine holds.modify (g := fun _ => true) inside (fun w k below => ?_) fun i => ?_
  · rw [BitVec.getLsbD_or, getLsbD_bitMask b below]
    by_cases here : k = b % 64
    · simp [here]
    · simp [here]
  · by_cases here : i = b
    · simp [here]
    · simp [here]

theorem Holds.clear (holds : bm.Holds nbits members) {b : Nat} (inside : b < nbits) :
    ∃ bm', bm.bmClear b = some bm' ∧ bm'.Holds nbits (members.erase b) := by
  refine holds.modify (g := fun _ => false) inside (fun w k below => ?_) fun i => ?_
  · rw [BitVec.getLsbD_and, BitVec.getLsbD_not, getLsbD_bitMask b below]
    by_cases here : k = b % 64
    · simp [here]
    · simp [here, below]
  · by_cases here : i = b
    · simp [here]
    · simp [here]

theorem Holds.toggle (holds : bm.Holds nbits members) {b : Nat} (inside : b < nbits) :
    ∃ bm', bm.bmToggle b = some bm' ∧ bm'.Holds nbits (symmDiff members {b}) := by
  refine holds.modify (g := fun one => !one) inside (fun w k below => ?_) fun i => ?_
  · rw [BitVec.getLsbD_xor, getLsbD_bitMask b below]
    by_cases here : k = b % 64
    · simp [here]
    · simp [here]
  · by_cases here : i = b
    · simp [here, Finset.mem_symmDiff]
    · simp [here, Finset.mem_symmDiff]

theorem Holds.zero (holds : bm.Holds nbits members) : ∃ bm', bm.bmZero = some bm' ∧ bm'.Holds nbits ∅ := by
  refine ⟨{ bm with words := List.replicate ((nbits + 63) / 64) 0 }, ?_, holds.size, List.length_replicate, holds.fits,
    fun i => bit_replicate_zero _ i, fun i none => absurd none (Finset.notMem_empty i)⟩
  rw [bmZero, holds.size, wordsFor_of_fits holds.fits, memsetWords_all holds.stored]
  rfl

theorem getLsbD_lowMask {r : Nat} (short : r < 64) (k : Nat) : ((1#64 <<< r) - 1).getLsbD k = decide (k < r) := by
  have power : 2 ^ r < 2 ^ 64 := Nat.pow_lt_pow_right (by decide) short
  have shifted : (1#64 <<< r).toNat = 2 ^ r := by
    rw [BitVec.toNat_shiftLeft, BitVec.toNat_ofNat, Nat.shiftLeft_eq, Nat.one_mod_two_pow_eq_one.mpr (by decide),
      Nat.one_mul, Nat.mod_eq_of_lt power]
  have positive : 1#64 ≤ 1#64 <<< r := by
    rw [BitVec.le_def, shifted]
    exact Nat.one_le_two_pow
  have value : ((1#64 <<< r) - 1#64).toNat = 2 ^ r - 1 := by
    rw [BitVec.toNat_sub_of_le positive, shifted]
    rfl
  rw [BitVec.getLsbD, ← Nat.testBit_two_pow_sub_one, ← value]
  rfl

theorem Holds.fill (holds : bm.Holds nbits members) :
    ∃ bm', bm.bmFill = some bm' ∧ bm'.Holds nbits (Finset.range nbits) := by
  have ones : ∀ i < nbits, bit (List.replicate ((nbits + 63) / 64) (BitVec.allOnes 64)) i = true := by
    intro i inside
    rw [bit_replicate _ _ (by omega), BitVec.getLsbD_allOnes]
    exact decide_eq_true (Nat.mod_lt _ (by decide))
  have members' : ∀ i, decide (i ∈ Finset.range nbits) = decide (i < nbits) := fun i =>
    decide_eq_decide.mpr Finset.mem_range
  by_cases partly : nbits % 64 ≠ 0
  · have last : (nbits + 63) / 64 - 1 = nbits / 64 := by omega
    have place : nbits / 64 < (List.replicate ((nbits + 63) / 64) (BitVec.allOnes 64)).length := by
      rw [List.length_replicate]
      omega
    refine ⟨⟨(List.replicate ((nbits + 63) / 64) (BitVec.allOnes 64)).set (nbits / 64)
      ((1#64 <<< (nbits % 64)) - 1), bm.nbits⟩, ?_, holds.size, ?_, holds.fits, fun i => ?_,
      fun i member => Finset.mem_range.mp member⟩
    · rw [bmFill, holds.size, wordsFor_of_fits holds.fits, memsetWords_all holds.stored, last]
      change (if nbits % 64 ≠ 0 then if nbits / 64 < _ then _ else none else _) = _
      rw [if_pos partly, if_pos place]
      rfl
    · exact List.length_set.trans List.length_replicate
    · rw [members' i, bit_set place]
      by_cases inLast : i / 64 = nbits / 64
      · rw [if_pos inLast, getLsbD_lowMask (Nat.mod_lt _ (by decide))]
        refine decide_eq_decide.mpr ?_
        omega
      · rw [if_neg inLast]
        by_cases inside : i < nbits
        · rw [ones i inside, decide_eq_true inside]
        · rw [decide_eq_false inside]
          refine bit_of_length_le ?_
          rw [List.length_replicate]
          omega
  · refine ⟨{ bm with words := List.replicate ((nbits + 63) / 64) (BitVec.allOnes 64) }, ?_, holds.size,
      List.length_replicate, holds.fits, fun i => ?_, fun i member => Finset.mem_range.mp member⟩
    · rw [bmFill, holds.size, wordsFor_of_fits holds.fits, memsetWords_all holds.stored]
      exact if_neg partly
    · rw [members' i]
      by_cases inside : i < nbits
      · rw [ones i inside, decide_eq_true inside]
      · rw [decide_eq_false inside]
        refine bit_of_length_le ?_
        rw [List.length_replicate]
        omega

theorem Holds.test (holds : bm.Holds nbits members) {b : Nat} (inside : b < nbits) :
    bm.bmTest b = some (decide (b ∈ members)) := by
  obtain ⟨w, found⟩ := holds.word inside
  have isBit := holds.bits b
  rw [bit_eq found] at isBit
  have same : (w &&& bitMask b ≠ 0) ↔ b ∈ members := by
    rw [and_bitMask, isBit, decide_eq_true_iff]
  rw [bmTest, found]
  exact congrArg some (decide_eq_decide.mpr same)

/-! ### Search -/

theorem slibcCtz_of_ne {w : BitVec 64} (real : w ≠ 0) : slibcCtz w = ctz w := if_neg real

/-- A turn of a search through the words, when nothing was found before `b`: the first one of the word is found, or
nothing is found in it. -/
theorem scan_word {w : BitVec 64} {p : Nat → Prop} [DecidablePred p] {start b : Nat}
    (none : ∀ i, start ≤ i → i < b → ¬p i) (isBit : ∀ i, i / 64 = b / 64 → w.getLsbD (i % 64) = decide (p i)) :
    (w >>> (b % 64) ≠ 0 → p (b + ctz (w >>> (b % 64)))
        ∧ ∀ i, start ≤ i → i < b + ctz (w >>> (b % 64)) → ¬p i)
      ∧ (w >>> (b % 64) = 0 → ∀ i, start ≤ i → i < (b / 64 + 1) * 64 → ¬p i) := by
  constructor
  · intro real
    obtain ⟨sameWord, isOne, before⟩ := scan_found real
    rw [isBit _ sameWord, decide_eq_true_iff] at isOne
    refine ⟨isOne, fun i after below => ?_⟩
    by_cases early : i < b
    · exact none i after early
    · obtain ⟨sameWord', zero⟩ := before i (Nat.not_lt.mp early) below
      rw [isBit i sameWord'] at zero
      exact of_decide_eq_false zero
  · intro zeros i after below
    by_cases early : i < b
    · exact none i after early
    · have sameWord : i / 64 = b / 64 := by omega
      have zero := scan_zero zeros (Nat.not_lt.mp early) sameWord
      rw [isBit i sameWord] at zero
      exact of_decide_eq_false zero

/-- The loop finds the first member from `start` on, when there is none between `start` and `b`. -/
theorem Holds.firstSetFrom (holds : bm.Holds nbits members) {start b : Nat} (order : start ≤ b)
    (none : ∀ i, start ≤ i → i < b → i ∉ members) :
    ∃ found, bm.firstSetFrom b = some found ∧ IsFirst (· ∈ members) start nbits found := by
  induction left : nbits - b using Nat.strongRecOn generalizing b with
  | ind left ih =>
      rw [SBitmap.firstSetFrom, holds.size]
      by_cases inside : b < nbits
      · obtain ⟨w, found⟩ := holds.word inside
        have isBit : ∀ i, i / 64 = b / 64 → w.getLsbD (i % 64) = decide (i ∈ members) := by
          intro i same
          rw [← holds.bits i, bit_eq]
          rw [same]
          exact found
        obtain ⟨finds, misses⟩ := scan_word none isBit
        rw [if_pos inside, found]
        change ∃ result, (if w >>> (b % 64) ≠ 0 then some (b + slibcCtz (w >>> (b % 64)))
          else bm.firstSetFrom ((b / 64 + 1) * 64)) = some result ∧ _
        by_cases real : w >>> (b % 64) ≠ 0
        · obtain ⟨isOne, before⟩ := finds real
          rw [if_pos real, slibcCtz_of_ne real]
          exact ⟨_, rfl, .inl ⟨by omega, holds.inside _ isOne, isOne, before⟩⟩
        · rw [if_neg real]
          exact ih _ (by omega) (by omega) (misses (not_not.mp real)) rfl
      · rw [if_neg inside]
        exact ⟨nbits, rfl, .inr ⟨rfl, fun i after below => none i after (by omega)⟩⟩

/-- The loop finds the first number below the size that is no member. -/
theorem Holds.firstClearFrom (holds : bm.Holds nbits members) {start b : Nat} (order : start ≤ b)
    (all : ∀ i, start ≤ i → i < b → ¬i ∉ members) :
    ∃ found, bm.firstClearFrom b = some found ∧ IsFirst (· ∉ members) start nbits found := by
  induction left : nbits - b using Nat.strongRecOn generalizing b with
  | ind left ih =>
      rw [SBitmap.firstClearFrom, holds.size]
      by_cases inside : b < nbits
      · obtain ⟨w, found⟩ := holds.word inside
        have isBit : ∀ i, i / 64 = b / 64 → (~~~w).getLsbD (i % 64) = decide (i ∉ members) := by
          intro i same
          have here : bm.words[i / 64]? = some w := by
            rw [same]
            exact found
          rw [BitVec.getLsbD_not, ← bit_eq here, holds.bits i, decide_not,
            decide_eq_true (Nat.mod_lt i (by decide : 0 < 64)), Bool.true_and]
        obtain ⟨finds, misses⟩ := scan_word all isBit
        rw [if_pos inside, found]
        change ∃ result, (if (~~~w) >>> (b % 64) ≠ 0 then
          some (if b + slibcCtz ((~~~w) >>> (b % 64)) < nbits then b + slibcCtz ((~~~w) >>> (b % 64)) else nbits)
          else bm.firstClearFrom ((b / 64 + 1) * 64)) = some result ∧ _
        by_cases real : (~~~w) >>> (b % 64) ≠ 0
        · obtain ⟨isOne, before⟩ := finds real
          rw [if_pos real, slibcCtz_of_ne real]
          by_cases fits : b + ctz ((~~~w) >>> (b % 64)) < nbits
          · rw [if_pos fits]
            exact ⟨_, rfl, .inl ⟨by omega, fits, isOne, before⟩⟩
          · rw [if_neg fits]
            exact ⟨_, rfl, .inr ⟨rfl, fun i after below => before i after (by omega)⟩⟩
        · rw [if_neg real]
          exact ih _ (by omega) (by omega) (misses (not_not.mp real)) rfl
      · rw [if_neg inside]
        exact ⟨nbits, rfl, .inr ⟨rfl, fun i after below => all i after (by omega)⟩⟩

/-! ### Counting -/

end SBitmap

/-- `slibc_popcount` counts the ones of a word. -/
theorem slibcPopcount_eq (v : BitVec 64) : slibcPopcount v = Nat.count (fun i => v.getLsbD i) 64 := by
  let one := Lanes.bits 64 v.toNat
  let two := Lanes.halve one
  let four := Lanes.halve two
  let eight := Lanes.halve four
  have count₁ : one.length = 2 * 32 := Lanes.length_bits 64 v.toNat
  obtain ⟨sum₂, count₂⟩ := Lanes.sum_halve count₁
  obtain ⟨sum₄, count₄⟩ := Lanes.sum_halve (k := 16) count₂
  obtain ⟨sum₈, count₈⟩ := Lanes.sum_halve (k := 8) count₄
  have one_le := Lanes.bits_le 64 v.toNat
  have two_le := Lanes.halve_le one_le
  have four_le := Lanes.halve_le two_le
  have eight_le := Lanes.halve_le four_le
  have value : Nat.ofDigits (2 ^ 1) one = v.toNat := by
    rw [Nat.pow_one, Lanes.ofDigits_bits, Nat.mod_eq_of_lt v.isLt]
  let v₂ := v - ((v >>> 1) &&& 0x5555555555555555#64)
  let v₄ := (v₂ &&& 0x3333333333333333#64) + ((v₂ >>> 2) &&& 0x3333333333333333#64)
  let v₈ := (v₄ + (v₄ >>> 4)) &&& 0x0f0f0f0f0f0f0f0f#64
  have first : v₂.toNat = Nat.ofDigits (2 ^ 2) two := by
    have odd : ((v >>> 1) &&& 0x5555555555555555#64).toNat = Nat.ofDigits (2 ^ 2) (Lanes.odds one) := by
      rw [BitVec.toNat_and, BitVec.toNat_ushiftRight, ← value]
      exact Lanes.shift_and_evenMask count₁ fun a member => Nat.lt_succ_of_le (one_le a member)
    have split : Nat.ofDigits (2 ^ 1) one =
        Nat.ofDigits (2 ^ 2) (Lanes.evens one) + 2 * Nat.ofDigits (2 ^ 2) (Lanes.odds one) :=
      Lanes.ofDigits_split (w := 1) count₁
    rw [value, ← odd] at split
    have order : (v >>> 1) &&& 0x5555555555555555#64 ≤ v := BitVec.le_def.mpr (by omega)
    have sum : Nat.ofDigits (2 ^ 2) two =
        Nat.ofDigits (2 ^ 2) (Lanes.evens one) + Nat.ofDigits (2 ^ 2) (Lanes.odds one) :=
      Lanes.ofDigits_halve (2 ^ 2) one
    rw [sum, ← odd]
    refine (BitVec.toNat_sub_of_le order).trans ?_
    omega
  have second : v₄.toNat = Nat.ofDigits (2 ^ 4) four := by
    have small : ∀ a ∈ two, a < 2 ^ 2 := fun a member => Nat.lt_of_le_of_lt (two_le a member) (by decide)
    have even : (v₂ &&& 0x3333333333333333#64).toNat = Nat.ofDigits (2 ^ 4) (Lanes.evens two) := by
      rw [BitVec.toNat_and, first]
      exact Lanes.ofDigits_and_evenMask (k := 16) count₂ small
    have odd : ((v₂ >>> 2) &&& 0x3333333333333333#64).toNat = Nat.ofDigits (2 ^ 4) (Lanes.odds two) := by
      rw [BitVec.toNat_and, BitVec.toNat_ushiftRight, first]
      exact Lanes.shift_and_evenMask (k := 16) count₂ small
    have sum : Nat.ofDigits (2 ^ 4) four =
        Nat.ofDigits (2 ^ 4) (Lanes.evens two) + Nat.ofDigits (2 ^ 4) (Lanes.odds two) :=
      Lanes.ofDigits_halve (2 ^ 4) two
    have fits : Nat.ofDigits (2 ^ 4) four < (2 ^ 4) ^ four.length :=
      Nat.ofDigits_lt_base_pow_length (by decide) fun a member => Nat.lt_of_le_of_lt (four_le a member) (by decide)
    rw [count₄] at fits
    refine (BitVec.toNat_add _ _).trans ?_
    rw [even, odd, ← sum]
    exact Nat.mod_eq_of_lt fits
  have third : v₈.toNat = Nat.ofDigits (2 ^ 8) eight := by
    have masked := Lanes.add_shift_and_evenMask (w := 4) (k := 8) count₄ four_le (by decide)
    rw [← second] at masked
    have fits : v₄.toNat + v₄.toNat >>> 4 < 2 ^ 64 := by
      have small : Nat.ofDigits (2 ^ 4) (Lanes.withNext four) < (2 ^ 4) ^ (Lanes.withNext four).length :=
        Nat.ofDigits_lt_base_pow_length (by decide)
          fun a member => Nat.lt_of_le_of_lt (Lanes.withNext_lt four_le a member) (by decide)
      rw [Lanes.length_withNext, count₄, ← Lanes.add_shift fun a member => Nat.lt_of_le_of_lt (four_le a member)
        (by decide), ← second] at small
      exact small
    refine (BitVec.toNat_and _ _).trans ?_
    rw [BitVec.toNat_add, BitVec.toNat_ushiftRight, Nat.mod_eq_of_lt fits]
    exact masked
  calc slibcPopcount v = ((v₈ * 0x0101010101010101#64) >>> 56).toNat := rfl
    _ = Nat.ofDigits (2 ^ 8) eight * 0x0101010101010101 % 2 ^ 64 / 2 ^ 56 := by
        rw [BitVec.toNat_ushiftRight, BitVec.toNat_mul, third, Nat.shiftRight_eq_div_pow, BitVec.toNat_ofNat]
    _ = eight.sum := Lanes.sum_bytes count₈ eight_le
    _ = one.sum := (sum₈.trans sum₄).trans sum₂
    _ = Nat.count (fun i => v.getLsbD i) 64 := Lanes.sum_bits 64 v.toNat

namespace SBitmap

variable {bm : SBitmap} {nbits : Nat} {members : Finset Nat}

theorem Holds.countSet (holds : bm.Holds nbits members) : bm.bmCountSet = some members.card := by
  have loop : ∀ k ≤ bm.words.length, (List.range k).foldlM
      (fun n i => do return n + slibcPopcount (← bm.words[i]?)) 0 =
        some ((bm.words.take k).map fun x => Nat.count (fun i => x.getLsbD i) 64).sum := by
    intro k
    induction k with
    | zero => exact fun _ => rfl
    | succ k ih =>
        intro inside
        have word : bm.words[k]? = some bm.words[k] := List.getElem?_eq_getElem inside
        rw [List.range_succ, List.foldlM_append, ih (Nat.le_of_succ_le inside), List.take_succ_eq_append_getElem inside,
          List.map_append, List.sum_append]
        change (do let x ← bm.words[k]?; return _ + slibcPopcount x) >>= pure = _
        rw [word]
        change some (_ + slibcPopcount bm.words[k]) = _
        rw [slibcPopcount_eq, List.map_singleton, List.sum_singleton]
  have whole := count_bit (by decide) bm.words
  have members' : members = (Finset.range (64 * bm.words.length)).filter fun i => bit bm.words i = true := by
    refine Finset.ext fun i => ?_
    rw [Finset.mem_filter, Finset.mem_range, holds.bits i, decide_eq_true_iff]
    have stored := holds.stored
    refine ⟨fun member => ⟨?_, member⟩, And.right⟩
    have below := holds.inside i member
    omega
  have card := Nat.count_eq_card_filter_range (fun i => bit bm.words i = true) (64 * bm.words.length)
  rw [bmCountSet, holds.size, wordsFor_of_fits holds.fits, ← holds.stored, loop _ (Nat.le_refl _), List.take_length,
    ← whole, card, ← members']

end SBitmap

/-! ## Runs -/

/-- A call that changes the bitmap. -/
inductive BitmapOp where
  | init (words : List (BitVec 64)) (nbits : Nat)
  | set (bit : Nat)
  | clear (bit : Nat)
  | toggle (bit : Nat)
  | zero
  | fill

/-- One call. -/
def SBitmap.step (bm : SBitmap) : BitmapOp → Option SBitmap
  | .init words nbits => SBitmap.bmInit words nbits
  | .set bit => bm.bmSet bit
  | .clear bit => bm.bmClear bit
  | .toggle bit => bm.bmToggle bit
  | .zero => bm.bmZero
  | .fill => bm.bmFill

/-- A set of numbers below a size. -/
structure BitSet where
  nbits : Nat
  members : Finset Nat

namespace BitSet

/-- What a call does to the set. -/
def step (a : BitSet) : BitmapOp → BitSet
  | .init _ nbits => ⟨nbits, ∅⟩
  | .set bit => { a with members := insert bit a.members }
  | .clear bit => { a with members := a.members.erase bit }
  | .toggle bit => { a with members := symmDiff a.members {bit} }
  | .zero => { a with members := ∅ }
  | .fill => { a with members := Finset.range a.nbits }

/-- An array of words for a number of bits, which is in memory and so is far smaller than `2 ^ 64` bits. -/
def Storage (words : List (BitVec 64)) (nbits : Nat) : Prop :=
  words.length = (nbits + 63) / 64 ∧ nbits + 63 < 2 ^ 64

/-- Bits are in range, and a bitmap is initialised with an array for it. -/
def Allows (a : BitSet) : BitmapOp → Prop
  | .init words nbits => Storage words nbits
  | .set bit | .clear bit | .toggle bit => bit < a.nbits
  | .zero | .fill => True

/-- The queries of the bitmap answer for the set. -/
structure Answers (a : BitSet) (bm : SBitmap) : Prop where
  test : ∀ bit < a.nbits, bm.bmTest bit = some (decide (bit ∈ a.members))
  countSet : bm.bmCountSet = some a.members.card
  firstSet : ∀ start, ∃ found, bm.bmFirstSet start = some found ∧ IsFirst (· ∈ a.members) start a.nbits found
  firstClear : ∀ start, ∃ found, bm.bmFirstClear start = some found ∧ IsFirst (· ∉ a.members) start a.nbits found

end BitSet

theorem SBitmap.Holds.answers {bm : SBitmap} {a : BitSet} (holds : bm.Holds a.nbits a.members) : a.Answers bm where
  test := fun _ inside => holds.test inside
  countSet := holds.countSet
  firstSet := fun start => holds.firstSetFrom (Nat.le_refl start) fun _ after below =>
    absurd below (Nat.not_lt.mpr after)
  firstClear := fun start => holds.firstClearFrom (Nat.le_refl start) fun _ after below =>
    absurd below (Nat.not_lt.mpr after)

/-- A call stays inside the array and does to the set what it should. -/
theorem SBitmap.Holds.step {bm : SBitmap} {a : BitSet} (holds : bm.Holds a.nbits a.members) {op : BitmapOp}
    (allowed : a.Allows op) : ∃ bm', bm.step op = some bm' ∧ bm'.Holds (a.step op).nbits (a.step op).members := by
  cases op with
  | init words nbits => exact SBitmap.holds_empty allowed.1 allowed.2
  | set bit => exact holds.set allowed
  | clear bit => exact holds.clear allowed
  | toggle bit => exact holds.toggle allowed
  | zero => exact holds.zero
  | fill => exact holds.fill

theorem SBitmap.Holds.run {bm : SBitmap} {a : BitSet} (holds : bm.Holds a.nbits a.members) {ops : List BitmapOp}
    (allowed : Run.Meets BitSet.step BitSet.Allows a ops) :
    ∃ bm', ops.foldlM SBitmap.step bm = some bm' ∧
      bm'.Holds (Run.final BitSet.step a ops).nbits (Run.final BitSet.step a ops).members := by
  induction ops generalizing bm a with
  | nil => exact ⟨bm, rfl, holds⟩
  | cons op ops ih =>
      obtain ⟨bm', stepped, holds'⟩ := holds.step allowed.1
      obtain ⟨bm'', ran, holds''⟩ := ih holds' allowed.2
      refine ⟨bm'', ?_, holds''⟩
      rw [List.foldlM_cons, stepped]
      exact ran

/-- From its initialisation on, a bitmap is the set that its calls make, and no call leaves the array of words. -/
theorem bitmap_refines {words : List (BitVec 64)} {nbits : Nat} (storage : BitSet.Storage words nbits)
    {ops : List BitmapOp} (allowed : Run.Meets BitSet.step BitSet.Allows ⟨nbits, ∅⟩ ops) :
    ∃ bm, (SBitmap.bmInit words nbits).bind (ops.foldlM SBitmap.step) = some bm ∧
      (Run.final BitSet.step ⟨nbits, ∅⟩ ops).Answers bm := by
  obtain ⟨bm, started, holds⟩ := SBitmap.holds_empty storage.1 storage.2
  obtain ⟨bm', ran, holds'⟩ := SBitmap.Holds.run (a := ⟨nbits, ∅⟩) holds allowed
  refine ⟨bm', ?_, holds'.answers⟩
  rw [started]
  exact ran

/-- A bitmap of 70 bits that is filled, and in which two bits are changed. -/
theorem bitmap_refines_two_words :
    ∃ bm, (SBitmap.bmInit [7, 9] 70).bind ([.fill, .clear 65, .toggle 3].foldlM SBitmap.step) = some bm ∧
      (Run.final BitSet.step ⟨70, ∅⟩ [.fill, .clear 65, .toggle 3]).Answers bm :=
  bitmap_refines ⟨rfl, by decide⟩ ⟨trivial, (by decide : 65 < 70), (by decide : 3 < 70), trivial⟩

end Systrix.Libc
