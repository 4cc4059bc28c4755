import Mathlib.Data.List.Basic
import Systrix.Libc.Printf

/-!
# Integer conversion

`strtoll` and `strtoull` of `libc/systrix_libc.c`.  The result is a value of 64 bits and the part of the string that
`endptr` points to.
-/

namespace Systrix.Libc

def isspace (c : UInt8) : Bool :=
  -- tab, line feed, carriage return, form feed and vertical tab
  c = ' '.toUInt8 ∨ c = 0x09 ∨ c = 0x0A ∨ c = 0x0D ∨ c = 0x0C ∨ c = 0x0B

def skipWsSign (s : List UInt8) : Bool × List UInt8 :=
  let s := s.dropWhile isspace
  let neg := s.head? = some '-'.toUInt8
  (neg, if neg ∨ s.head? = some '+'.toUInt8 then s.tail else s)

/-- The base, and the prefix that goes with it. -/
def skipBase (base : Nat) (s : List UInt8) : Nat × List UInt8 :=
  let hex := s.head? = some '0'.toUInt8 ∧ (s.tail.head? = some 'x'.toUInt8 ∨ s.tail.head? = some 'X'.toUInt8)
  if base = 0 then
    if hex then (16, s.drop 2)
    else if s.head? = some '0'.toUInt8 then (8, s.tail)
    else (10, s)
  else if base = 16 ∧ hex then (base, s.drop 2)
  else (base, s)

/-- The value of a digit in any base. -/
def digitValue (c : UInt8) : Option Nat :=
  if '0'.toUInt8 ≤ c ∧ c ≤ '9'.toUInt8 then some (c.toNat - 48)
  else if 'a'.toUInt8 ≤ c ∧ c ≤ 'z'.toUInt8 then some (c.toNat - 97 + 10)
  else if 'A'.toUInt8 ≤ c ∧ c ≤ 'Z'.toUInt8 then some (c.toNat - 65 + 10)
  else none

/-- The loop over the digits. -/
def readDigits (base : Nat) (v : BitVec 64) : List UInt8 → BitVec 64 × List UInt8
  | [] => (v, [])
  | c :: s =>
      match digitValue c with
      | none => (v, c :: s)
      | some d => if base ≤ d then (v, c :: s) else readDigits base (v * BitVec.ofNat 64 base + BitVec.ofNat 64 d) s

def strtoll (s : List UInt8) (base : Nat) : BitVec 64 × List UInt8 :=
  let (neg, s) := skipWsSign s
  let (base, s) := skipBase base s
  let (v, s) := readDigits base 0 s
  (if neg then -v else v, s)

/-- `strtoull`, which skips the blanks and the sign by itself. -/
def strtoull (s : List UInt8) (base : Nat) : BitVec 64 × List UInt8 :=
  let s := s.dropWhile isspace
  let neg := s.head? = some '-'.toUInt8
  let s := if neg ∨ s.head? = some '+'.toUInt8 then s.tail else s
  let (base, s) := skipBase base s
  let (v, s) := readDigits base 0 s
  (if neg then -v else v, s)

theorem strtoull_eq (s : List UInt8) (base : Nat) : strtoull s base = strtoll s base := by
  unfold strtoull strtoll skipWsSign
  simp only [decide_eq_true_eq]

end Systrix.Libc

/-!
## Numbers that are written and read back

What a numeric directive writes: blanks, a sign, a mark of the base, zeros, digits and blanks.  `strtoll` and `strtoull`
pass over the first three and read the digits.
-/

namespace Systrix.Libc

/-! ## Digits -/

theorem digitValue_table : ∀ (upper : Bool) (d : Fin 16),
    ∃ c, (digitTable upper)[d.val]? = some c ∧ digitValue c = some d.val := by decide +kernel

theorem digitValue_of_table {upper : Bool} {d : Nat} (small : d < 16) {c : UInt8}
    (found : (digitTable upper)[d]? = some c) : digitValue c = some d := by
  obtain ⟨c', found', value⟩ := digitValue_table upper ⟨d, small⟩
  cases found.symm.trans found'
  exact value

section digits

variable {base room v : Nat} {upper : Bool} {tmp : List UInt8}

/-- The digits are digits of the base. -/
def AreDigits (base : Nat) (s : List UInt8) : Prop := ∀ c ∈ s, ∃ d < base, digitValue c = some d

theorem readDigits_cons {d n : Nat} {c : UInt8} {s : List UInt8} (value : digitValue c = some d) (small : d < base) :
    readDigits base (BitVec.ofNat 64 n) (c :: s) = readDigits base (BitVec.ofNat 64 (n * base + d)) s := by
  rw [readDigits, value, BitVec.ofNat_add, BitVec.ofNat_mul]
  exact if_neg (Nat.not_le_of_lt small)

theorem areDigits_reversed (positive : 0 < base) (small : base ≤ 16)
    (written : digitsReversed base (digitTable upper) room v = some tmp) : AreDigits base tmp := by
  induction room generalizing v tmp with
  | zero =>
      rw [digitsReversed] at written
      split at written
      · cases written
        exact fun c member => absurd member List.not_mem_nil
      · cases written
  | succ room ih =>
      rw [digitsReversed] at written
      split at written
      · cases written
        exact fun c member => absurd member List.not_mem_nil
      · have below := Nat.mod_lt v positive
        obtain ⟨digit, found, rest⟩ := Option.bind_eq_some_iff.mp written
        obtain ⟨more, wrote, eq⟩ := Option.bind_eq_some_iff.mp rest
        cases eq
        intro c member
        rcases List.mem_cons.mp member with rfl | later
        · exact ⟨v % base, below, digitValue_of_table (Nat.lt_of_lt_of_le below small) found⟩
        · exact ih wrote c later

/-- The digits that were written are read as the number. -/
theorem readDigits_reversed (positive : 0 < base) (small : base ≤ 16)
    (written : digitsReversed base (digitTable upper) room v = some tmp) (n : Nat) (s : List UInt8) :
    readDigits base (BitVec.ofNat 64 n) (tmp.reverse ++ s) =
      readDigits base (BitVec.ofNat 64 (n * base ^ tmp.length + v)) s := by
  induction room generalizing v tmp s with
  | zero =>
      rw [digitsReversed] at written
      split at written
      · next zero =>
          cases written
          rw [zero, List.length_nil, Nat.pow_zero, Nat.mul_one]
          rfl
      · cases written
  | succ room ih =>
      rw [digitsReversed] at written
      split at written
      · next zero =>
          cases written
          rw [zero, List.length_nil, Nat.pow_zero, Nat.mul_one]
          rfl
      · have below := Nat.mod_lt v positive
        obtain ⟨digit, found, rest⟩ := Option.bind_eq_some_iff.mp written
        obtain ⟨more, wrote, eq⟩ := Option.bind_eq_some_iff.mp rest
        cases eq
        have value := digitValue_of_table (Nat.lt_of_lt_of_le below small) found
        have sum : (n * base ^ more.length + v / base) * base + v % base = n * base ^ (more.length + 1) + v := by
          rw [Nat.add_mul, Nat.mul_assoc, ← Nat.pow_succ, Nat.add_assoc, Nat.mul_comm (v / base), Nat.div_add_mod]
        rw [List.reverse_cons, List.append_assoc, ih wrote]
        change readDigits base _ (digit :: s) = _
        rw [readDigits_cons value below, sum, List.length_cons]

/-- There is room for every number in `tmp`. -/
theorem exists_digitsReversed (upper : Bool) (large : 1 < base) (small : base ≤ 16) (fits : v < base ^ room) :
    ∃ tmp, digitsReversed base (digitTable upper) room v = some tmp := by
  induction room generalizing v with
  | zero =>
      rw [Nat.pow_zero, Nat.lt_one_iff] at fits
      exact ⟨[], if_pos fits⟩
  | succ room ih =>
      by_cases zero : v = 0
      · exact ⟨[], if_pos zero⟩
      · have below := Nat.mod_lt v (Nat.lt_trans Nat.zero_lt_one large)
        obtain ⟨digit, found, -⟩ := digitValue_table upper ⟨v % base, Nat.lt_of_lt_of_le below small⟩
        have rest : v / base < base ^ room := by
          rw [Nat.pow_succ, Nat.mul_comm] at fits
          exact Nat.div_lt_of_lt_mul fits
        obtain ⟨tmp, wrote⟩ := ih rest
        refine ⟨digit :: tmp, ?_⟩
        rw [digitsReversed, if_neg zero, wrote]
        change (digitTable upper)[v % base]? = some digit at found
        rw [found]
        rfl

/-- Zeros in front. -/
theorem readDigits_zeros (positive : 0 < base) (z : Nat) (s : List UInt8) :
    readDigits base 0 (List.replicate z '0'.toUInt8 ++ s) = readDigits base 0 s := by
  induction z with
  | zero => rfl
  | succ z ih =>
      have zero : digitValue '0'.toUInt8 = some 0 := by decide
      have next := readDigits_cons (n := 0) (s := List.replicate z '0'.toUInt8 ++ s) zero positive
      rw [Nat.zero_mul] at next
      exact next.trans ih

/-- The number ends before the blanks. -/
theorem readDigits_blanks (base : Nat) (n : BitVec 64) (k : Nat) :
    readDigits base n (List.replicate k ' '.toUInt8) = (n, List.replicate k ' '.toUInt8) := by
  cases k with
  | zero => rfl
  | succ k =>
      have blank : digitValue ' '.toUInt8 = none := by decide
      rw [List.replicate_succ, readDigits, blank]

end digits

/-! ## What a directive writes -/

/-- The integer conversions. -/
inductive Conversion where
  | d | u | x | X | o
  deriving DecidableEq

namespace Conversion

def spec : Conversion → UInt8
  | d => 'd'.toUInt8
  | u => 'u'.toUInt8
  | x => 'x'.toUInt8
  | X => 'X'.toUInt8
  | o => 'o'.toUInt8

def base : Conversion → Nat
  | d => 10
  | u => 10
  | x => 16
  | X => 16
  | o => 8

theorem base_le (conv : Conversion) : 1 < conv.base ∧ conv.base ≤ 16 := by cases conv <;> decide

end Conversion

section text

variable {conv : Conversion} {f : FormatFlags} {width : Int} {uval : BitVec 64} {neg : Bool} {tmp : List UInt8}

/-- The digits in `tmp`. -/
structure Holds (conv : Conversion) (uval : BitVec 64) (tmp : List UInt8) : Prop where
  some : tmp ≠ []
  zero : uval = 0 → tmp = ['0'.toUInt8]
  digits : AreDigits conv.base tmp
  reads : ∀ (n : Nat) (s : List UInt8), readDigits conv.base (BitVec.ofNat 64 n) (tmp.reverse ++ s) =
    readDigits conv.base (BitVec.ofNat 64 (n * conv.base ^ tmp.length + uval.toNat)) s

theorem exists_holds (conv : Conversion) (uval : BitVec 64) : ∃ tmp, Holds conv uval tmp ∧
    tmpDigits conv.base (digitTable (conv.spec = 'X'.toUInt8)) uval = some tmp := by
  obtain ⟨large, small⟩ := conv.base_le
  have positive := Nat.lt_trans Nat.zero_lt_one large
  by_cases zero : uval = 0
  · refine ⟨['0'.toUInt8], ⟨List.cons_ne_nil _ _, fun _ => rfl, fun c member => ?_, fun n s => ?_⟩, if_pos zero⟩
    · exact ⟨0, positive, by rw [List.mem_singleton.mp member]; decide⟩
    · rw [zero]
      exact (readDigits_cons (by decide) positive).trans (by rw [List.length_singleton, Nat.pow_one]; rfl)
  · have enough : uval.toNat < conv.base ^ 24 := by
      have octal : 8 ≤ conv.base := by cases conv <;> decide
      exact Nat.lt_of_lt_of_le (Nat.lt_trans uval.isLt (by decide)) (Nat.pow_le_pow_left octal 24)
    obtain ⟨tmp, wrote⟩ := exists_digitsReversed (conv.spec = 'X'.toUInt8) large small enough
    refine ⟨tmp, ⟨?_, fun none => absurd none zero, areDigits_reversed positive small wrote,
      readDigits_reversed positive small wrote⟩, ?_⟩
    · rintro rfl
      have some : uval.toNat ≠ 0 := fun none => zero (BitVec.eq_of_toNat_eq none)
      rw [digitsReversed, if_neg some] at wrote
      obtain ⟨digit, -, rest⟩ := Option.bind_eq_some_iff.mp wrote
      obtain ⟨more, -, eq⟩ := Option.bind_eq_some_iff.mp rest
      cases eq
    · exact (if_neg zero).trans wrote

theorem numberText_eq (conv : Conversion) (f : FormatFlags) (width : Int) (uval : BitVec 64) (neg : Bool) :
    ∃ a z b tmp, Holds conv uval tmp ∧ numberText f width conv.spec uval neg =
      some (List.replicate a ' '.toUInt8 ++ (signText f neg ++ (altText f conv.spec uval tmp ++
        (List.replicate z '0'.toUInt8 ++ (tmp.reverse ++ List.replicate b ' '.toUInt8))))) := by
  obtain ⟨tmp, holds, wrote⟩ := exists_holds conv uval
  have base : specBase conv.spec = conv.base := by cases conv <;> rfl
  rw [numberText, base, wrote]
  simp only [Option.bind_eq_bind, Option.bind_some]
  obtain ⟨k, fill⟩ : ∃ k, ∀ c, padding c (tmp.length + (signText f neg ++ altText f conv.spec uval tmp).length) width =
      List.replicate k c := ⟨_, fun c => rfl⟩
  by_cases left : f.left = true
  · refine ⟨0, 0, k, tmp, holds, ?_⟩
    simp only [fill, left, not_true_eq_false, false_and, if_false, if_true, List.replicate_zero, List.nil_append,
      List.append_assoc]
    rfl
  by_cases zero : f.zero = true
  · refine ⟨0, k, 0, tmp, holds, ?_⟩
    have other : '0'.toUInt8 ≠ ' '.toUInt8 := by decide
    simp only [fill, left, zero, not_false_eq_true, true_and, and_self, if_true, if_neg other, List.replicate_zero,
      List.nil_append, List.append_nil, List.append_assoc, Bool.false_eq_true, if_false]
    rfl
  · refine ⟨k, 0, 0, tmp, holds, ?_⟩
    have other : ' '.toUInt8 ≠ '0'.toUInt8 := by decide
    simp only [fill, left, zero, and_false, not_false_eq_true, true_and, if_neg other, List.replicate_zero,
      List.nil_append, List.append_nil, List.append_assoc, Bool.false_eq_true, if_false, if_true]
    rfl

/-! ## What is read back -/

theorem digit_apart_all : ∀ n : Fin 256, (digitValue (UInt8.ofNat n)).isSome →
    isspace (UInt8.ofNat n) = false ∧ UInt8.ofNat n ≠ '-'.toUInt8 ∧ UInt8.ofNat n ≠ '+'.toUInt8 := by decide +kernel

/-- No digit is a blank or a sign. -/
theorem digit_apart {c : UInt8} {d : Nat} (digit : digitValue c = some d) :
    isspace c = false ∧ c ≠ '-'.toUInt8 ∧ c ≠ '+'.toUInt8 := by
  have all := digit_apart_all ⟨c.toNat, c.toNat_lt⟩
  rw [UInt8.ofNat_toNat, digit] at all
  exact all rfl

theorem dropWhile_blanks (a : Nat) {c : UInt8} (solid : isspace c = false) (s : List UInt8) :
    (List.replicate a ' '.toUInt8 ++ c :: s).dropWhile isspace = c :: s := by
  induction a with
  | zero => exact List.dropWhile_cons_of_neg (by rw [solid]; exact Bool.false_ne_true)
  | succ a ih =>
      rw [List.replicate_succ, List.cons_append, List.dropWhile_cons_of_pos (by decide)]
      exact ih

theorem skipWsSign_text (a : Nat) {c : UInt8} {d : Nat} (digit : digitValue c = some d) (s : List UInt8) :
    skipWsSign (List.replicate a ' '.toUInt8 ++ (signText f neg ++ c :: s)) = (neg, c :: s) := by
  obtain ⟨solid, noMinus, noPlus⟩ := digit_apart digit
  have bare (k : Nat) : skipWsSign (List.replicate k ' '.toUInt8 ++ c :: s) = (false, c :: s) := by
    rw [skipWsSign, dropWhile_blanks k solid, List.head?_cons]
    simp only [Option.some_inj, noMinus, noPlus, decide_false, or_self, if_false]
  unfold signText
  cases neg with
  | true =>
      rw [if_pos rfl, List.singleton_append, skipWsSign, dropWhile_blanks a (by decide)]
      rfl
  | false =>
      rw [if_neg Bool.false_ne_true]
      split_ifs
      · rw [List.singleton_append, skipWsSign, dropWhile_blanks a (by decide)]
        rfl
      · rw [← List.append_assoc, ← List.replicate_succ']
        exact bare (a + 1)
      · exact bare a

/-- Zeros, digits and blanks. -/
def plainText (z b : Nat) (tmp : List UInt8) : List UInt8 :=
  List.replicate z '0'.toUInt8 ++ (tmp.reverse ++ List.replicate b ' '.toUInt8)

variable {z b base : Nat}

theorem readDigits_plain (holds : Holds conv uval tmp) :
    readDigits conv.base 0 (plainText z b tmp) = (uval, List.replicate b ' '.toUInt8) := by
  have reads := holds.reads 0 (List.replicate b ' '.toUInt8)
  rw [Nat.zero_mul, Nat.zero_add, BitVec.ofNat_toNat, BitVec.setWidth_eq, readDigits_blanks] at reads
  rw [plainText, readDigits_zeros (Nat.lt_trans Nat.zero_lt_one conv.base_le.1)]
  exact reads

theorem noMark (holds : Holds conv uval tmp) : ∀ c ∈ plainText z b tmp, c ≠ 'x'.toUInt8 ∧ c ≠ 'X'.toUInt8 := by
  intro c member
  rcases List.mem_append.mp member with zero | later
  · rw [(List.mem_replicate.mp zero).2]
    decide
  rcases List.mem_append.mp later with digit | blank
  · obtain ⟨d, small, value⟩ := holds.digits c (List.mem_reverse.mp digit)
    have small' := Nat.lt_of_lt_of_le small conv.base_le.2
    constructor
    · rintro rfl
      have mark : digitValue 'x'.toUInt8 = some 33 := by decide
      cases mark.symm.trans value
      exact absurd small' (by decide)
    · rintro rfl
      have mark : digitValue 'X'.toUInt8 = some 33 := by decide
      cases mark.symm.trans value
      exact absurd small' (by decide)
  · rw [(List.mem_replicate.mp blank).2]
    decide

/-- Without a mark the base is taken from the first zero. -/
theorem skipBase_plain {s : List UInt8} (noMark : ∀ c ∈ s, c ≠ 'x'.toUInt8 ∧ c ≠ 'X'.toUInt8) (base : Nat) :
    skipBase base s =
      if base = 0 then (if s.head? = some '0'.toUInt8 then (8, s.tail) else (10, s)) else (base, s) := by
  have none : ¬(s.head? = some '0'.toUInt8 ∧
      (s.tail.head? = some 'x'.toUInt8 ∨ s.tail.head? = some 'X'.toUInt8)) := by
    rintro ⟨-, found | found⟩
    · exact (noMark _ (List.mem_of_mem_tail (List.mem_of_head? found))).1 rfl
    · exact (noMark _ (List.mem_of_mem_tail (List.mem_of_head? found))).2 rfl
  rw [skipBase]
  simp only [none, if_false, and_false]

/-- The first zero counts for nothing. -/
theorem readDigits_tail {s : List UInt8} (zero : s.head? = some '0'.toUInt8) :
    readDigits 8 0 s.tail = readDigits 8 0 s := by
  cases s with
  | nil => cases zero
  | cons c s =>
      cases zero
      exact (readDigits_zeros (by decide) 1 s).symm

/-- The conversions whose base is marked under `#`. -/
def Conversion.Marked (conv : Conversion) : Prop := conv = .x ∨ conv = .X ∨ conv = .o

theorem head_plain (last : tmp.getLast? = some '0'.toUInt8) : (plainText z b tmp).head? = some '0'.toUInt8 := by
  cases z with
  | zero =>
      have some : tmp.reverse ≠ [] := by
        intro none
        rw [List.reverse_eq_nil_iff.mp none] at last
        cases last
      rw [plainText, List.replicate_zero, List.nil_append, List.head?_append_of_ne_nil _ some, List.head?_reverse]
      exact last
  | succ z => rfl

/-- The base is found and the number read, with the mark and without. -/
theorem read_number (holds : Holds conv uval tmp)
    (allowed : base = conv.base ∨ (base = 0 ∧ f.hash = true ∧ conv.Marked)) :
    ∃ k s, skipBase base (altText f conv.spec uval tmp ++ plainText z b tmp) = (k, s) ∧
      readDigits k 0 s = (uval, List.replicate b ' '.toUInt8) := by
  have plain : readDigits conv.base 0 (plainText z b tmp) = _ := readDigits_plain holds
  unfold altText
  split_ifs with hex upper oct
  · have isHex : conv = .X := by
      revert upper
      cases conv <;> decide
    subst isHex
    refine ⟨16, _, ?_, plain⟩
    rcases allowed with rfl | ⟨rfl, -, -⟩ <;> rfl
  · have isHex : conv = .x := by
      have spec := hex.2.1.resolve_right upper
      revert spec
      cases conv <;> decide
    subst isHex
    refine ⟨16, _, ?_, plain⟩
    rcases allowed with rfl | ⟨rfl, -, -⟩ <;> rfl
  · have isOct : conv = .o := by
      have spec := oct.2.1
      revert spec
      cases conv <;> decide
    subst isOct
    have clean : ∀ c ∈ '0'.toUInt8 :: plainText z b tmp, c ≠ 'x'.toUInt8 ∧ c ≠ 'X'.toUInt8 := by
      intro c member
      rcases List.mem_cons.mp member with rfl | later
      · decide
      · exact noMark holds c later
    rw [List.singleton_append, skipBase_plain clean]
    rcases allowed with rfl | ⟨rfl, -, -⟩
    · exact ⟨_, _, rfl, (readDigits_zeros (by decide) 1 _).trans plain⟩
    · exact ⟨_, _, rfl, plain⟩
  · rw [List.nil_append, skipBase_plain (noMark holds)]
    have large := Nat.lt_trans Nat.zero_lt_one conv.base_le.1
    rcases allowed with rfl | ⟨rfl, hash, marked⟩
    · rw [if_neg (Nat.ne_of_gt large)]
      exact ⟨_, _, rfl, plain⟩
    · rw [if_pos rfl]
      by_cases isOct : conv = .o
      · subst isOct
        have last : tmp.getLast? = some '0'.toUInt8 := by
          by_contra other
          exact oct ⟨hash, rfl, Or.inr other⟩
        have first := head_plain (z := z) (b := b) last
        rw [if_pos first]
        exact ⟨_, _, rfl, (readDigits_tail first).trans plain⟩
      · have isHex : conv.spec = 'x'.toUInt8 ∨ conv.spec = 'X'.toUInt8 := by
          rcases marked with rfl | rfl | rfl
          · exact Or.inl rfl
          · exact Or.inr rfl
          · exact absurd rfl isOct
        have zero : uval = 0 := by
          by_contra some
          exact hex ⟨hash, isHex, some⟩
        have single := holds.zero zero
        have first : (plainText z b tmp).head? = some '0'.toUInt8 := head_plain (by rw [single]; rfl)
        rw [if_pos first]
        refine ⟨_, _, rfl, (readDigits_tail first).trans ?_⟩
        rw [plainText, readDigits_zeros (by decide), single, zero]
        exact (readDigits_zeros (by decide) 1 _).trans (readDigits_blanks 8 0 b)

end text

end Systrix.Libc
