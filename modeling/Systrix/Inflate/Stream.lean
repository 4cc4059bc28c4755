import Systrix.Inflate.Blocks

/-!
# Inflating a stream

`inflate_raw_stream` expands every compressed stream whose expansion fits the
output buffer, and stops with an error code on everything else.  Its `int`
result tells the size of the expansion as long as that is below 2 GiB.
-/

namespace Systrix.Inflate

open Machine BitString CanonicalCode Fallible Deflate BitReader

/-- The decoder at the start of its input. -/
theorem start_at (input : List UInt8) (buffer : Nat → UInt8) (out_len : Nat) :
    InflateCtx.At ⟨⟨input, 0, 0, 0⟩, ⟨buffer, out_len, 0, none⟩, .empty, .empty⟩ input buffer
      out_len (bytesBits input) [] where
  reader := ⟨⟨Nat.succ_pos 7, Nat.succ_pos 0, Nat.zero_le _⟩, rfl, rfl⟩
  sink := ⟨rfl, rfl, rfl, Nat.zero_le _, fun _ _ => rfl⟩
  sized := ⟨sized_empty, sized_empty⟩

theorem start_bits (input : List UInt8) : (bytesBits input).length ≤ 8 * input.length :=
  Nat.le_of_eq (length_bytesBits input)

/-- Every stream whose expansion fits is expanded. -/
theorem inflateRaw_of_inflates {input expansion : List UInt8} (buffer : Nat → UInt8)
    {out_len : Nat} (inflates : Inflates input expansion) (fits : expansion.length ≤ out_len) :
    ∃ s, inflateRaw input buffer out_len none = .ok s ∧ s.sink.At buffer out_len expansion := by
  obtain ⟨rest, blocks⟩ := inflates
  have enough : (bytesBits input).length < loopFuel ⟨input, 0, 0, 0⟩ :=
    Nat.lt_succ_of_le (start_bits input)
  obtain ⟨s, run, done⟩ := inflateBlocks_of_blocks blocks (start_at input buffer out_len)
    (start_bits input) enough fits
  exact ⟨s, run, done.sink⟩

/-- Every other input makes the decoder stop with an error code. -/
theorem inflateRaw_ends (input : List UInt8) (buffer : Nat → UInt8) (out_len : Nat) :
    Ends Failure (fun s => ∃ expansion, Inflates input expansion ∧
      s.sink.At buffer out_len expansion) (inflateRaw input buffer out_len none) := by
  have enough : (bytesBits input).length < loopFuel ⟨input, 0, 0, 0⟩ :=
    Nat.lt_succ_of_le (start_bits input)
  refine (inflateBlocks_ends (start_at input buffer out_len) (start_bits input) enough).mono ?_
  rintro s ⟨rest, expansion, blocks, done⟩
  exact ⟨expansion, ⟨rest, blocks⟩, done.sink⟩

theorem toInt32_of_lt {value : Nat} (bound : value < 2 ^ 31) : toInt32 value = value := by
  rw [toInt32, u32_of_lt (by omega)]
  exact if_pos bound

/-- `inflate_raw_stream` returns the size of the expansion, which it has written
to the start of the buffer and nowhere else. -/
theorem inflateRawStream_correct (input expansion : List UInt8) (buffer : Nat → UInt8)
    (out_len : Nat) (inflates : Inflates input expansion) (short : expansion.length < 2 ^ 31)
    (fits : expansion.length ≤ out_len) :
    ∃ s, inflateRawStream input buffer out_len = .ok ((expansion.length : Int), s) ∧
      (∀ i (inside : i < expansion.length), s.sink.out i = expansion[i]) ∧
      ∀ i, expansion.length ≤ i → s.sink.out i = buffer i := by
  obtain ⟨s, run, done⟩ := inflateRaw_of_inflates buffer inflates fits
  refine ⟨s, ?_, fun i inside => ?_, done.behind⟩
  · rw [inflateRawStream, run, ok_bind, done.out_pos, toInt32_of_lt short]
    rfl
  · have written := done.getElem? inside
    rw [List.getElem?_eq_getElem inside] at written
    exact (Option.some.inj written).symm

/-- A fixed block with a match that overlaps its own output. -/
def repeatedLetter : List UInt8 := [75, 76, 132, 0, 0]

theorem repeatedLetter_inflates : Inflates repeatedLetter (List.replicate 8 97) := by
  have front : bytesBits repeatedLetter = true :: (lsbBits 2 1 ++ (msbBits 8 145 ++
      (msbBits 8 145 ++ (msbBits 7 4 ++ ([] ++ (msbBits 5 0 ++ ([] ++
        (msbBits 7 0 ++ [false, false])))))))) := by decide
  have letter : Codeword fixedLiterals 97 (msbBits 8 145) :=
    ⟨8, by decide, by decide +kernel, by decide +kernel⟩
  have length : Codeword fixedLiterals 260 (msbBits 7 4) :=
    ⟨7, by decide, by decide +kernel, by decide +kernel⟩
  have endOfBlock : Codeword fixedLiterals 256 (msbBits 7 0) :=
    ⟨7, by decide, by decide +kernel, by decide +kernel⟩
  have distance : Codeword fixedDistances 0 (msbBits 5 0) :=
    codeword_replicate.mpr ⟨by decide, by decide, rfl⟩
  refine ⟨[false, false], ?_⟩
  rw [front]
  have copied : Symbols fixedLiterals fixedDistances
      (msbBits 7 4 ++ ([] ++ (msbBits 5 0 ++ ([] ++ (msbBits 7 0 ++ [false, false])))))
      [97, 97] [false, false] (List.replicate 8 97) :=
    @Symbols.copy _ _ _ _ _ _ _ _ _ _ 3 0 (by decide) length rfl (by decide) distance rfl
      (by decide) (.endOfBlock endOfBlock)
  have second : Symbols fixedLiterals fixedDistances _ [97] [false, false] (List.replicate 8 97) :=
    @Symbols.literal _ _ _ _ _ _ _ 97 letter copied
  exact .final (.fixed (@Symbols.literal _ _ _ _ _ _ _ 97 letter second))

theorem inflateRawStream_correct_repeatedLetter :
    ∃ s, inflateRawStream repeatedLetter (fun _ => 0) 8 = .ok (8, s) ∧
      ∀ i (inside : i < 8), s.sink.out i = (List.replicate 8 (97 : UInt8))[i] := by
  obtain ⟨s, run, written, -⟩ := inflateRawStream_correct repeatedLetter (List.replicate 8 97)
    (fun _ => 0) 8 repeatedLetter_inflates (by decide) (by decide)
  exact ⟨s, run, written⟩

/-! ## Arbitrary input -/

/-- The call reports what it did: an error code, or how many bytes it has written,
within the capacity. -/
def Reports (out_len : Nat) (run : Except Stop (Int × InflateCtx)) : Prop :=
  (∃ stop, run = .error stop ∧ Failure stop) ∨
    ∃ s, run = .ok ((s.sink.out_pos : Int), s) ∧ s.sink.out_pos ≤ out_len

theorem toInt32_lt (value : Nat) : toInt32 value < 2 ^ 31 := by
  have bound := u32_lt value
  rw [toInt32]
  split_ifs <;> omega

/-- Whatever the input, no access is out of bounds, all loops end and nothing is
written behind the capacity; and the call reports what it did unless the input is
a stream that expands to 2 GiB or more. -/
theorem inflateRawStream_reports_iff (input : List UInt8) (buffer : Nat → UInt8) (out_len : Nat) :
    Ends Failure (fun result => result.2.sink.out_pos ≤ out_len ∧
        ∀ i, out_len ≤ i → result.2.sink.out i = buffer i)
      (inflateRawStream input buffer out_len) ∧
    (Reports out_len (inflateRawStream input buffer out_len) ↔
      ∀ expansion, Inflates input expansion → expansion.length ≤ out_len →
        expansion.length < 2 ^ 31) := by
  refine ⟨?_, ?_, fun short => ?_⟩
  · refine Ends.bind (inflateRaw_ends input buffer out_len) ?_
    rintro s ⟨expansion, -, done⟩
    refine .ok ⟨done.out_pos ▸ done.room, fun i beyond => ?_⟩
    exact done.behind i (Nat.le_trans done.room beyond)
  · intro reports expansion inflates fits
    obtain ⟨s, run, done⟩ := inflateRaw_of_inflates buffer inflates fits
    have result : inflateRawStream input buffer out_len = .ok (toInt32 s.sink.out_pos, s) := by
      rw [inflateRawStream, run]
      rfl
    have small := toInt32_lt s.sink.out_pos
    rw [result] at reports
    rcases reports with ⟨stop, stopped, -⟩ | ⟨s', returned, -⟩
    · cases stopped
    · injection returned with same
      injection same with count sameState
      subst sameState
      rw [count, done.out_pos] at small
      exact_mod_cast small
  · have ends := inflateRaw_ends input buffer out_len
    cases run : inflateRaw input buffer out_len none with
    | error stop =>
        rw [run, ends_error] at ends
        exact .inl ⟨stop, by rw [inflateRawStream, run]; rfl, ends⟩
    | ok s =>
        rw [run, ends_ok] at ends
        obtain ⟨expansion, inflates, done⟩ := ends
        have count := short expansion inflates done.room
        refine .inr ⟨s, ?_, done.out_pos ▸ done.room⟩
        rw [inflateRawStream, run, ok_bind, done.out_pos, toInt32_of_lt count]
        rfl

/-! ## A stream of 2 GiB -/

/-- A stored block of 65535 zeros. -/
def zeroBlock (final : Bool) : List UInt8 :=
  (if final then 1 else 0) :: 255 :: 255 :: 0 :: 0 :: List.replicate 65535 0

/-- `count + 1` stored blocks of zeros. -/
def zeroBlocks (count : Nat) : List UInt8 :=
  (List.replicate count (zeroBlock false)).flatten ++ zeroBlock true

theorem bytesBits_zeroBlock (final : Bool) :
    bytesBits (zeroBlock final) = final :: (lsbBits 2 0 ++ (lsbBits 5 0 ++
      (lsbBits 16 65535 ++ (lsbBits 16 0 ++
        bytesBits (List.replicate 65535 0))))) := by
  have header : bytesBits [if final then 1 else 0] = final :: (lsbBits 2 0 ++ lsbBits 5 0) := by
    cases final <;> decide
  have size := lsbBits_sixteen 255 255
  have complement := lsbBits_sixteen 0 0
  have split : zeroBlock final =
      [if final then 1 else 0] ++ ([255, 255] ++ ([0, 0] ++ List.replicate 65535 0)) := rfl
  rw [split, bytesBits_append, bytesBits_append, bytesBits_append, header, ← size, ← complement]
  simp only [List.cons_append, List.append_assoc]
  rfl

theorem zeroBlock_body {rest : Bits} (out : List UInt8) (aligned : rest.length % 8 = 0) :
    Body 0 (lsbBits 5 0 ++ (lsbBits 16 65535 ++ (lsbBits 16 0 ++
      (bytesBits (List.replicate 65535 0) ++ rest)))) out rest (out ++ List.replicate 65535 0) := by
  have size : (List.replicate 65535 (0 : UInt8)).length = 65535 := List.length_replicate
  have body := @Body.stored (lsbBits 5 0) rest out (List.replicate 65535 0) (by rw [size]; decide)
    aligned (by decide)
  have complement : 2 ^ 16 - 1 - 65535 = 0 := by omega
  rwa [size, complement] at body

theorem zeroBlocks_blocks (count : Nat) (out : List UInt8) :
    Blocks (bytesBits (zeroBlocks count)) out [] (out ++ List.replicate ((count + 1) * 65535) 0) := by
  induction count generalizing out with
  | zero =>
      rw [zeroBlocks, List.replicate_zero, List.flatten_nil, List.nil_append, bytesBits_zeroBlock,
        Nat.zero_add, Nat.one_mul]
      have empty : ([] : Bits).length % 8 = 0 := rfl
      have body := zeroBlock_body out empty
      rw [List.append_nil] at body
      exact .final body
  | succ count ih =>
      have split : zeroBlocks (count + 1) = zeroBlock false ++ zeroBlocks count := by
        simp only [zeroBlocks, List.replicate_succ, List.flatten_cons, List.append_assoc]
      have next := ih (out ++ List.replicate 65535 0)
      rw [List.append_assoc, List.replicate_append_replicate] at next
      have total : 65535 + (count + 1) * 65535 = (count + 1 + 1) * 65535 := by omega
      rw [total] at next
      rw [split, bytesBits_append, bytesBits_zeroBlock]
      simp only [List.cons_append, List.append_assoc]
      exact .more (zeroBlock_body out (by rw [length_bytesBits, Nat.mul_mod_right])) next

/-- 32769 such blocks fit a buffer of 4 GiB, but the call returns a number that is
neither their size nor an error code. -/
theorem inflateRawStream_zeroBlocks :
    (∃ s, inflateRawStream (zeroBlocks 32768) (fun _ => 0) (2 ^ 32) = .ok (-2147450881, s) ∧
      s.sink.out_pos = 2147516415) ∧
    ¬Reports (2 ^ 32) (inflateRawStream (zeroBlocks 32768) (fun _ => 0) (2 ^ 32)) := by
  have inflates : Inflates (zeroBlocks 32768) (List.replicate 2147516415 0) :=
    ⟨[], zeroBlocks_blocks 32768 []⟩
  have size : (List.replicate 2147516415 (0 : UInt8)).length = 2147516415 := List.length_replicate
  obtain ⟨s, run, done⟩ := inflateRaw_of_inflates (fun _ => 0) inflates
    (show _ ≤ 2 ^ 32 by rw [size]; decide)
  have count := done.out_pos
  rw [size] at count
  have result : inflateRawStream (zeroBlocks 32768) (fun _ => 0) (2 ^ 32) =
      .ok (-2147450881, s) := by
    rw [inflateRawStream, run, ok_bind, count]
    rfl
  refine ⟨⟨s, result, count⟩, ?_⟩
  rw [result]
  rintro (⟨stop, stopped, -⟩ | ⟨s', returned, -⟩)
  · cases stopped
  · injection returned with same
    injection same with negative
    omega

end Systrix.Inflate
