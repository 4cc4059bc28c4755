import Systrix.Inflate.Decoder
import Systrix.Lib.Deflate

/-!
# The bit reader of inflate

`pending` is the bit string still to be read: what is left in `bitbuf`, then the
remaining input bytes.  Reading `need` bits takes them off its front.
-/

namespace Systrix.Inflate

open Machine BitString Fallible

@[simp] theorem readAt_of_lt {α : Type} {table : List α} {index : Nat}
    (inside : index < table.length) : readAt table index = .ok table[index] := by
  simp [readAt, List.getElem?_eq_getElem inside, pure, Except.pure]

theorem readAt_of_getElem? {α : Type} {table : List α} {index : Nat} {value : α}
    (found : table[index]? = some value) : readAt table index = .ok value := by
  simp [readAt, found, pure, Except.pure]

@[simp] theorem writeAt_of_lt {α : Type} {table : List α} {index : Nat} {value : α}
    (inside : index < table.length) : writeAt table index value = .ok (table.set index value) := by
  simp [writeAt, inside, pure, Except.pure]

namespace BitReader

/-- The bits not read yet. -/
def pending (s : BitReader) : Bits :=
  lsbBits s.bitcnt s.bitbuf ++ bytesBits (s.input.drop s.in_pos)

/-- Between two reads less than a byte is buffered. -/
structure Ready (s : BitReader) : Prop where
  few : s.bitcnt < 8
  fits : s.bitbuf < 2 ^ s.bitcnt
  inside : s.in_pos ≤ s.in_len

theorem length_pending (s : BitReader) :
    s.pending.length = s.bitcnt + 8 * (s.in_len - s.in_pos) := by
  simp [pending, in_len]

end BitReader

open BitReader

/-- A byte is put above the bits in the buffer. -/
theorem or_byte {val bitcnt : Nat} (byte : UInt8) (fits : val < 2 ^ bitcnt) (few : bitcnt ≤ 16) :
    val ||| u32 (byte.toNat <<< bitcnt) = val + byte.toNat * 2 ^ bitcnt := by
  have small : byte.toNat < 2 ^ 8 := byte.toNat_lt
  have bound : byte.toNat * 2 ^ bitcnt < 2 ^ 32 := calc
    byte.toNat * 2 ^ bitcnt ≤ byte.toNat * 2 ^ 16 :=
      Nat.mul_le_mul_left _ (Nat.pow_le_pow_right (by decide) few)
    _ < 2 ^ 32 := by omega
  rw [Nat.shiftLeft_eq, u32_of_lt bound, Nat.or_comm, Nat.mul_comm,
    ← Nat.two_pow_add_eq_or_of_lt fits, Nat.add_comm]

/-- The refill loop moves bytes from the input to the buffer. -/
theorem fillBits_spec {need val : Nat} {s : BitReader} (small : need ≤ 16)
    (fits : val < 2 ^ s.bitcnt) (inside : s.in_pos ≤ s.in_len) :
    if need ≤ s.bitcnt + 8 * (s.in_len - s.in_pos) then
      ∃ val' s', fillBits need val s = .ok (val', s') ∧ need ≤ s'.bitcnt ∧
        s'.bitcnt < max (s.bitcnt + 1) (need + 8) ∧ val' < 2 ^ s'.bitcnt ∧
        s'.in_pos ≤ s'.in_len ∧ s'.input = s.input ∧
        lsbBits s'.bitcnt val' ++ bytesBits (s'.input.drop s'.in_pos) =
          lsbBits s.bitcnt val ++ bytesBits (s.input.drop s.in_pos)
    else fillBits need val s = .error errInput := by
  fun_induction fillBits need val s with
  | case1 val s low atEnd =>
      have empty : ¬need ≤ s.bitcnt + 8 * (s.in_len - s.in_pos) := by omega
      rw [if_neg empty]
      rfl
  | case2 val s low more ih =>
      have below : s.in_pos < s.input.length := Nat.not_le.mp more
      have grown : val ||| u32 (s.input[s.in_pos].toNat <<< s.bitcnt) < 2 ^ (s.bitcnt + 8) := by
        rw [or_byte _ fits (by omega), Nat.pow_add]
        have byteSmall : s.input[s.in_pos].toNat + 1 ≤ 2 ^ 8 := s.input[s.in_pos].toNat_lt
        have scaled := Nat.mul_le_mul_right (2 ^ s.bitcnt) byteSmall
        rw [Nat.add_mul, Nat.mul_comm (2 ^ 8)] at scaled
        omega
      have recursive := ih s.input[s.in_pos] grown below
      rw [readAt_of_lt below, ok_bind]
      have counted : need ≤ s.bitcnt + 8 + 8 * (s.input.length - (s.in_pos + 1)) ↔
          need ≤ s.bitcnt + 8 * (s.in_len - s.in_pos) := by
        unfold in_len
        omega
      by_cases enough : need ≤ s.bitcnt + 8 * (s.in_len - s.in_pos)
      · rw [if_pos (by exact counted.mpr enough)] at recursive
        rw [if_pos enough]
        obtain ⟨val', s', run, enough', bound, fits', inside', input, same⟩ := recursive
        refine ⟨val', s', run, enough', by dsimp only at bound; omega, fits', inside', input, ?_⟩
        rw [same, or_byte _ fits (by omega), lsbBits_concat _ _ fits, List.append_assoc,
          ← bytesBits_cons, ← List.drop_eq_getElem_cons below]
      · rw [if_neg (by exact mt counted.mp enough)] at recursive
        rw [if_neg enough]
        exact recursive
  | case3 val s enough =>
      rw [if_pos (by omega)]
      exact ⟨val, s, rfl, by omega, by omega, fits, inside, rfl, rfl⟩

/-- `bits(need)` returns the first `need` pending bits as a number and removes
them, or fails when there are not that many. -/
theorem bits_spec {need : Nat} {s : BitReader} (ready : s.Ready) (small : need ≤ 16) :
    if need ≤ s.pending.length then
      ∃ s', bits need s = .ok (lsbValue (s.pending.take need), s') ∧ s'.Ready ∧
        s'.pending = s.pending.drop need ∧ s'.input = s.input
    else bits need s = .error errInput := by
  have filled := fillBits_spec small ready.fits ready.inside
  rw [length_pending]
  split_ifs at filled ⊢
  · obtain ⟨val, s', run, enough, bound, fits, inside, input, same⟩ := filled
    have few := ready.few
    have positive : 0 < 2 ^ need := Nat.two_pow_pos need
    have split : lsbBits s'.bitcnt val =
        lsbBits need val ++ lsbBits (s'.bitcnt - need) (val / 2 ^ need) := by
      rw [← lsbBits_add, Nat.add_sub_cancel' enough]
    have whole : s.pending = lsbBits need val ++
        (lsbBits (s'.bitcnt - need) (val / 2 ^ need) ++
          bytesBits (s'.input.drop s'.in_pos)) := by
      rw [← List.append_assoc, ← split, same]
      rfl
    have front : s.pending.take need = lsbBits need val := by
      rw [whole, List.take_left' (length_lsbBits _ _)]
    have back : s.pending.drop need = lsbBits (s'.bitcnt - need) (val / 2 ^ need) ++
        bytesBits (s'.input.drop s'.in_pos) := by
      rw [whole, List.drop_left' (length_lsbBits _ _)]
    refine ⟨{ s' with bitbuf := val >>> need, bitcnt := s'.bitcnt - need }, ?_, ?_, ?_, input⟩
    · rw [front, lsbValue_lsbBits, ← Nat.and_two_pow_sub_one_eq_mod, ← Nat.one_shiftLeft]
      simp [bits, run, pure, Except.pure]
    · refine ⟨by dsimp only; omega, ?_, inside⟩
      dsimp only
      rw [Nat.shiftRight_eq_div_pow, Nat.div_lt_iff_lt_mul positive, ← Nat.pow_add,
        Nat.sub_add_cancel enough]
      exact fits
    · rw [back, pending, Nat.shiftRight_eq_div_pow]
  · simp [bits, filled]

/-- What a call of `bits` can do. -/
theorem bits_cases {need : Nat} {s : BitReader} (ready : s.Ready) (small : need ≤ 16) :
    (∃ word s', word.length = need ∧ s.pending = word ++ s'.pending ∧ s'.Ready ∧
        s'.input = s.input ∧ bits need s = .ok (lsbValue word, s')) ∨
      s.pending.length < need ∧ bits need s = .error errInput := by
  have spec := bits_spec ready small
  split_ifs at spec with enough
  · obtain ⟨s', run, ready', rest, input⟩ := spec
    refine .inl ⟨s.pending.take need, s', List.length_take_of_le enough, ?_, ready', input, run⟩
    rw [rest, List.take_append_drop]
  · exact .inr ⟨Nat.not_le.mp enough, spec⟩

/-! ## Positions -/

/-- The stops that are error returns of the source. -/
def Failure (stop : Stop) : Prop := stop = errData ∨ stop = errOutput ∨ stop = errInput

/-- The reader has `rest` of the bits of `input` before it. -/
structure BitReader.At (s : BitReader) (input : List UInt8) (rest : Bits) : Prop where
  ready : s.Ready
  pending_eq : s.pending = rest
  input_eq : s.input = input

variable {s : BitReader} {input : List UInt8} {word rest all : Bits} {need : Nat}

theorem BitReader.At.bits_cases (here : s.At input all) (small : need ≤ 16) :
    (∃ word s' rest, word.length = need ∧ all = word ++ rest ∧ s'.At input rest ∧
        bits need s = .ok (lsbValue word, s')) ∨
      all.length < need ∧ bits need s = .error errInput := by
  obtain ⟨ready, rfl, rfl⟩ := here
  rcases Inflate.bits_cases ready small with
    ⟨word, s', size, front, ready', input, run⟩ | short
  · exact .inl ⟨word, s', _, size, front, ⟨ready', rfl, input⟩, run⟩
  · exact .inr short

/-- Reading a word that is there. -/
theorem BitReader.At.bits (here : s.At input (word ++ rest)) (size : word.length = need)
    (small : need ≤ 16) :
    ∃ s', Inflate.bits need s = .ok (lsbValue word, s') ∧ s'.At input rest := by
  rcases here.bits_cases small with ⟨word', s', rest', size', front, there, run⟩ | ⟨short, -⟩
  · obtain ⟨rfl, rfl⟩ := List.append_inj front (size.trans size'.symm)
    exact ⟨s', run, there⟩
  · rw [List.length_append] at short
    omega

theorem BitReader.At.bits_ends (here : s.At input all) (small : need ≤ 16) :
    Ends Failure (fun result => ∃ word rest, word.length = need ∧ all = word ++ rest ∧
      result.1 = lsbValue word ∧ result.2.At input rest) (Inflate.bits need s) := by
  rcases here.bits_cases small with ⟨word, s', rest, size, front, there, run⟩ | ⟨-, run⟩
  · rw [run]
    exact .ok ⟨word, rest, size, front, rfl, there⟩
  · rw [run]
    exact .error (.inr (.inr rfl))

end Systrix.Inflate

/-!
## Huffman tables of inflate

`huff_build` turns code lengths into the tables of their canonical code, and
`decode` finds the code word the pending bits start with.
-/

namespace Systrix.Inflate

open Machine BitString CanonicalCode Fallible BitReader

variable {lengths counts offs symbols : List Nat} {n : Nat}

/-- `h` holds the tables of the canonical code of `lengths`. -/
structure Represents (h : Huff) (lengths : List Nat) : Prop where
  symbols_length : h.symbols.length = 288
  short : ∀ len ∈ lengths, len ≤ maxBits
  fits : Fits maxBits lengths
  count : ∀ len, 0 < len → len ≤ maxBits → h.counts[len]? = some (lengths.count len)
  symbol : ∀ sym len, 0 < len → lengths[sym]? = some len →
    h.symbols[shorter lengths len + rank lengths sym len]? = some sym

theorem u16_of_lt {value : Nat} (bound : value < 2 ^ 16) : u16 value = value :=
  Nat.mod_eq_of_lt bound

/-! ## Building -/

/-- The table of the number of symbols of each length. -/
def countTable (lengths : List Nat) : List Nat :=
  (List.range (maxBits + 1)).map fun len => lengths.count len

theorem getElem?_countTable {len : Nat} (inside : len ≤ maxBits) :
    (countTable lengths)[len]? = some (lengths.count len) := by
  have below : len < maxBits + 1 := Nat.lt_succ_of_le inside
  simp [countTable, below]

theorem countTable_concat (lengths : List Nat) (len : Nat) :
    (countTable lengths).set len (lengths.count len + 1) = countTable (lengths ++ [len]) := by
  refine List.ext_getElem (by simp [countTable]) fun index left right => ?_
  rw [List.getElem_set]
  by_cases here : len = index
  · subst here
    simp [countTable]
  · have other : ¬len = index := here
    simp [countTable, other]

theorem countLengths_spec (short : ∀ len ∈ lengths, len ≤ maxBits) (bound : lengths.length ≤ 288) :
    countLengths lengths lengths.length = .ok (countTable lengths) := by
  have ends : Ends (fun _ => False) (fun counts => counts = countTable (lengths.take lengths.length))
      (countLengths lengths lengths.length) := by
    unfold countLengths
    refine Ends.foldRange (fun i counts => counts = countTable (lengths.take i)) ?_ ?_
    · rfl
    · rintro i inside _ rfl
      have within : lengths[i] ≤ maxBits := short _ (List.getElem_mem inside)
      have few : (lengths.take i).count lengths[i] ≤ 288 :=
        Nat.le_trans List.count_le_length (Nat.le_trans (List.length_take_le' _ _) bound)
      have inTable : lengths[i] < (countTable (lengths.take i)).length := by
        simpa [countTable] using Nat.lt_succ_of_le within
      rw [readAt_of_lt inside, ok_bind, readAt_of_getElem? (getElem?_countTable within), ok_bind,
        writeAt_of_lt inTable, u16_of_lt (by omega), countTable_concat,
        ← List.take_succ_eq_append_getElem inside, ends_ok]
  obtain ⟨counts, run, rfl⟩ := ends.exists_ok
  rw [run, List.take_length]

/-- The check fails exactly on over-subscribed lengths. -/
theorem checkLeft_spec (lengths : List Nat) :
    Ends (fun stop => stop = errData ∧ ¬Fits maxBits lengths) (fun _ => Fits maxBits lengths)
      (checkLeft (countTable lengths)) := by
  have ends : Ends (fun stop => stop = errData ∧ ¬Fits maxBits lengths)
      (fun left : Int => left = 2 ^ maxBits - (firstWord lengths maxBits +
        wordCount lengths maxBits : Nat) ∧ Fits maxBits lengths)
      (checkLeft (countTable lengths)) := by
    unfold checkLeft
    refine Ends.foldRange (fun i (left : Int) =>
      left = 2 ^ i - (firstWord lengths i + wordCount lengths i : Nat) ∧ Fits i lengths) ?_ ?_
    · refine ⟨by simp [firstWord, wordCount], fun len none => ?_⟩
      simp [Nat.le_zero.mp none, firstWord, wordCount]
    · rintro i inside left ⟨value, fits⟩
      have next : left * 2 - (lengths.count (i + 1) : Nat) =
          2 ^ (i + 1) - (firstWord lengths (i + 1) + wordCount lengths (i + 1) : Nat) := by
        rw [value, firstWord, wordCount_of_pos (by omega : 0 < i + 1), Int.pow_succ]
        push_cast
        omega
      rw [readAt_of_getElem? (getElem?_countTable (Nat.succ_le_of_lt inside)), ok_bind]
      dsimp only
      rw [next]
      have bound : (2 : Int) ^ (i + 1) = (2 ^ (i + 1) : Nat) := by push_cast; rfl
      split_ifs with negative
      · refine .error ⟨rfl, fun all => ?_⟩
        have below := all (i + 1) (Nat.succ_le_of_lt inside)
        omega
      · refine .ok ⟨rfl, fun len within => ?_⟩
        by_cases last : len = i + 1
        · subst last
          omega
        · exact fits len (by omega)
  exact ends.mono fun _ holds => holds.2

theorem buildOffsets_spec (bound : lengths.length ≤ 288) :
    ∃ offs, buildOffsets (countTable lengths) = .ok offs ∧ offs.length = maxBits + 1 ∧
      ∀ len, 0 < len → len ≤ maxBits → offs[len]? = some (shorter lengths len) := by
  have ends : Ends (fun _ => False) (fun offs => offs.length = maxBits + 1 ∧
      ∀ len, 0 < len → len ≤ maxBits - 1 + 1 → offs[len]? = some (shorter lengths len))
      (buildOffsets (countTable lengths)) := by
    unfold buildOffsets
    refine Ends.foldRange (fun i (offs : List Nat) => offs.length = maxBits + 1 ∧
      ∀ len, 0 < len → len ≤ i + 1 → offs[len]? = some (shorter lengths len)) ?_ ?_
    · refine ⟨by simp, fun len positive within => ?_⟩
      have one : len = 1 := by omega
      simp [one, maxBits, shorter, wordCount]
    · rintro i inside offs ⟨size, table⟩
      have within : i + 1 ≤ maxBits := by omega
      have total := shorter_add_wordCount_le_length lengths (i + 1)
      have few := List.length_filter_le (fun other => decide (other ≤ i + 1)) lengths
      rw [wordCount_of_pos (by omega : 0 < i + 1)] at total
      rw [readAt_of_getElem? (table (i + 1) (Nat.succ_pos i) (Nat.le_refl _)), ok_bind,
        readAt_of_getElem? (getElem?_countTable within), ok_bind,
        writeAt_of_lt (by rw [size]; omega), u16_of_lt (by omega), ends_ok]
      refine ⟨by rw [List.length_set, size], fun len positive bound => ?_⟩
      rw [List.getElem?_set]
      by_cases here : i + 2 = len
      · subst here
        have next : shorter lengths (i + 2) = shorter lengths (i + 1) + wordCount lengths (i + 1) :=
          rfl
        rw [if_pos rfl, if_pos (by omega), next, wordCount_of_pos (by omega : 0 < i + 1)]
      · rw [if_neg here]
        exact table len positive (by omega)
  obtain ⟨offs, run, size, table⟩ := ends.exists_ok
  exact ⟨offs, run, size, table⟩

theorem fillSymbols_spec (short : ∀ len ∈ lengths, len ≤ maxBits) (bound : lengths.length ≤ 288)
    (offsLength : offs.length = maxBits + 1) (symbolsLength : symbols.length = 288)
    (offsTable : ∀ len, 0 < len → len ≤ maxBits → offs[len]? = some (shorter lengths len)) :
    ∃ offs' symbols', fillSymbols lengths offs symbols lengths.length = .ok (offs', symbols') ∧
      symbols'.length = 288 ∧ ∀ sym len, 0 < len → lengths[sym]? = some len →
        symbols'[shorter lengths len + rank lengths sym len]? = some sym := by
  have ends : Ends (fun _ => False) (fun tables : List Nat × List Nat =>
      tables.1.length = maxBits + 1 ∧ tables.2.length = 288 ∧
      (∀ len, 0 < len → len ≤ maxBits →
        tables.1[len]? = some (shorter lengths len + rank lengths lengths.length len)) ∧
      ∀ sym < lengths.length, ∀ len, 0 < len → lengths[sym]? = some len →
        tables.2[shorter lengths len + rank lengths sym len]? = some sym)
      (fillSymbols lengths offs symbols lengths.length) := by
    unfold fillSymbols
    refine Ends.foldRange (fun i (tables : List Nat × List Nat) =>
      tables.1.length = maxBits + 1 ∧ tables.2.length = 288 ∧
      (∀ len, 0 < len → len ≤ maxBits →
        tables.1[len]? = some (shorter lengths len + rank lengths i len)) ∧
      ∀ sym < i, ∀ len, 0 < len → lengths[sym]? = some len →
        tables.2[shorter lengths len + rank lengths sym len]? = some sym) ?_ ?_
    · refine ⟨offsLength, symbolsLength, fun len positive within => ?_, by simp⟩
      simpa [rank] using offsTable len positive within
    · rintro i inside ⟨offs, symbols⟩ ⟨offsLength, symbolsLength, offsTable, filled⟩
      dsimp only at offsLength symbolsLength offsTable filled ⊢
      rw [readAt_of_lt inside, ok_bind]
      have coded : lengths[i]? = some lengths[i] := List.getElem?_eq_getElem inside
      split_ifs with unused
      · refine .ok ⟨offsLength, symbolsLength, fun len positive within => ?_, ?_⟩
        · rw [rank_succ _ inside, if_neg (by omega)]
          exact offsTable len positive within
        · intro sym earlier len positive codedSym
          by_cases here : sym = i
          · subst here
            rw [coded] at codedSym
            cases codedSym
            omega
          · exact filled sym (by omega) len positive codedSym
      · have positive : 0 < lengths[i] := Nat.pos_of_ne_zero unused
        have within : lengths[i] ≤ maxBits := short _ (List.getElem_mem inside)
        have place := position_lt positive coded
        rw [readAt_of_getElem? (offsTable _ positive within), ok_bind,
          writeAt_of_lt (by omega), ok_bind, writeAt_of_lt (by omega), ok_bind,
          u16_of_lt (by omega), u16_of_lt (by omega), ends_pure]
        refine ⟨by simpa using offsLength, by simpa using symbolsLength, ?_, ?_⟩
        · intro len positive' within'
          dsimp only
          rw [rank_succ _ inside, List.getElem?_set]
          by_cases here : lengths[i] = len
          · subst here
            rw [if_pos rfl, if_pos (by omega), if_pos rfl, Nat.add_assoc]
          · rw [if_neg here, if_neg here]
            exact offsTable len positive' within'
        · intro sym earlier len positive' codedSym
          dsimp only
          rw [List.getElem?_set]
          by_cases here : sym = i
          · subst here
            rw [coded] at codedSym
            cases codedSym
            rw [if_pos rfl, if_pos (by omega)]
          · have apart : shorter lengths lengths[i] + rank lengths i lengths[i] ≠
                shorter lengths len + rank lengths sym len :=
              fun same => here (position_injective positive positive' coded codedSym same).symm
            rw [if_neg apart]
            exact filled sym (by omega) len positive' codedSym
  obtain ⟨⟨offs', symbols'⟩, run, -, size, -, filled⟩ := ends.exists_ok
  refine ⟨offs', symbols', run, size, fun sym len positive coded => ?_⟩
  exact filled sym (List.getElem?_eq_some_iff.mp coded).1 len positive coded

/-- `huff_build` accepts exactly the lengths of prefix codes and builds their
canonical code. -/
theorem huffBuild_spec {h : Huff} (symbolsLength : h.symbols.length = 288)
    (short : ∀ len ∈ lengths, len ≤ maxBits) (bound : lengths.length ≤ 288) :
    Ends (fun stop => stop = errData ∧ ¬Kraft maxBits lengths)
      (fun h' => Kraft maxBits lengths ∧ Represents h' lengths)
      (huffBuild h lengths lengths.length) := by
  have zero : (countTable lengths)[0]? = some (lengths.count 0) :=
    getElem?_countTable (Nat.zero_le _)
  unfold huffBuild
  rw [countLengths_spec short bound, ok_bind, readAt_of_getElem? zero, ok_bind, kraft_iff_fits short]
  split_ifs with unused
  · have none : ∀ len ∈ lengths, len = 0 := by
      intro len member
      by_contra nonzero
      have fewer : lengths.count 0 ≠ lengths.length := by
        intro all
        exact nonzero (List.count_eq_length.mp all len member).symm
      exact fewer unused
    have empty : ∀ len, wordCount lengths len = 0 := by
      intro len
      unfold wordCount
      split_ifs with isZero
      · rfl
      · exact List.count_eq_zero_of_not_mem fun member => isZero (none len member)
    have first : ∀ len, firstWord lengths len = 0 := by
      intro len
      induction len with
      | zero => rfl
      | succ len ih => rw [firstWord, ih, empty]
    have fits : Fits maxBits lengths := fun len _ => by simp [first, empty]
    rw [ends_pure]
    refine ⟨fits, symbolsLength, short, fits, ?_, ?_⟩
    · exact fun len _ within => getElem?_countTable within
    · intro sym len positive coded
      have isZero := none len (List.mem_of_getElem? coded)
      omega
  · refine Ends.bind (checkLeft_spec lengths) fun _ fits => ?_
    obtain ⟨offs, runOffs, offsLength, offsTable⟩ := buildOffsets_spec bound
    obtain ⟨offs', symbols', runFill, size, filled⟩ :=
      fillSymbols_spec short bound offsLength symbolsLength offsTable
    rw [runOffs, ok_bind, runFill, ok_bind, ends_pure]
    exact ⟨fits, size, short, fits, fun len _ within => getElem?_countTable within, filled⟩

/-! ## Decoding -/

/-- The outcome of `decode`: the symbol whose code word the pending bits start
with, or an error when they start with none. -/
def Decodes (lengths : List Nat) (s : BitReader) (run : Except Stop (Nat × BitReader)) : Prop :=
  (∃ sym word s', Codeword lengths sym word ∧ s.pending = word ++ s'.pending ∧ s'.Ready ∧
      s'.input = s.input ∧ run = .ok (sym, s')) ∨
    (∀ sym word, Codeword lengths sym word → ¬word <+: s.pending) ∧
      (run = .error errInput ∨ run = .error errData)

/-- The loop of `decode` after reading `read`, which no code word is as short as. -/
theorem decodeLoop_spec {h : Huff} (tables : Represents h lengths) {s : BitReader}
    {remaining : Nat} (start : BitReader) (read : Bits)
    (ready : s.Ready) (input : s.input = start.input) (rest : start.pending = read ++ s.pending)
    (left : remaining + read.length = maxBits)
    (above : firstWord lengths (read.length + 1) ≤ 2 * msbValue read)
    (longer : ∀ sym word, Codeword lengths sym word → word <+: start.pending →
      read.length < word.length) :
    Decodes lengths start (decodeLoop h remaining (read.length + 1) ((2 * msbValue read : Nat) : Int)
      (firstWord lengths (read.length + 1)) (shorter lengths (read.length + 1)) s) := by
  induction remaining generalizing read s with
  | zero =>
      refine .inr ⟨fun sym word codeword isPrefix => ?_, .inr rfl⟩
      obtain ⟨-, coded, -⟩ := (codeword_iff tables.fits tables.short).mp codeword
      have bound := tables.short _ (List.mem_of_getElem? coded)
      have least := longer sym word codeword isPrefix
      omega
  | succ remaining ih =>
      rw [decodeLoop]
      rcases bits_cases ready (by decide : 1 ≤ 16) with
        ⟨word, s', size, front, ready', input', run⟩ | ⟨short, run⟩
      · obtain ⟨bit, rfl⟩ := List.length_eq_one_iff.mp size
        have whole : start.pending = (read ++ [bit]) ++ s'.pending := by
          rw [rest, front, List.append_assoc]
        have value : lsbValue [bit] = bit.toNat := by simp [lsbValue]
        have code := msbValue_concat read bit
        have within : read.length + 1 ≤ maxBits := by omega
        rw [run, ok_bind]
        dsimp only
        rw [readAt_of_getElem? (tables.count (read.length + 1) (Nat.succ_pos _) within), ok_bind, value]
        have counted : wordCount lengths (read.length + 1) = lengths.count (read.length + 1) :=
          wordCount_of_pos (Nat.succ_pos _)
        split_ifs with found
        · have below : 2 * msbValue read + bit.toNat - firstWord lengths (read.length + 1) <
              lengths.count (read.length + 1) := by omega
          obtain ⟨sym, coded, position⟩ := exists_rank below
          have isWord : Codeword lengths sym (read ++ [bit]) := by
            rw [codeword_iff tables.fits tables.short, List.length_append, List.length_singleton]
            exact ⟨Nat.succ_pos _, coded, by omega⟩
          have place := tables.symbol sym (read.length + 1) (Nat.succ_pos _) coded
          have index : (shorter lengths (read.length + 1) : Int) +
              ((2 * msbValue read : Nat) + (bit.toNat : Int) -
                firstWord lengths (read.length + 1)) =
              (shorter lengths (read.length + 1) + rank lengths sym (read.length + 1) : Nat) := by
            omega
          refine .inl ⟨sym, read ++ [bit], s', isWord, whole, ready', input'.trans input, ?_⟩
          rw [index, readAtInt, if_pos (Int.natCast_nonneg _), Int.toNat_natCast,
            readAt_of_getElem? place]
          rfl
        · have next := ih (read ++ [bit]) ready' (input'.trans input) whole
            (by rw [List.length_append, List.length_singleton]; omega) ?_ ?_
          · rw [List.length_append, List.length_singleton, code] at next
            have first : firstWord lengths (read.length + 1 + 1) =
                2 * (firstWord lengths (read.length + 1) + wordCount lengths (read.length + 1)) := rfl
            have before : shorter lengths (read.length + 1 + 1) =
                shorter lengths (read.length + 1) + wordCount lengths (read.length + 1) := rfl
            rw [first, before, counted] at next
            convert next using 2
            all_goals push_cast; omega
          · rw [List.length_append, List.length_singleton, firstWord, counted]
            omega
          · intro sym word codeword isPrefix
            have least := longer sym word codeword isPrefix
            rw [List.length_append, List.length_singleton]
            refine Nat.lt_of_le_of_ne least fun same => ?_
            have isRead : word = read ++ [bit] := by
              refine (List.prefix_of_prefix_length_le isPrefix ?_ ?_).eq_of_length ?_
              · exact ⟨_, whole.symm⟩
              · simp [same]
              · simp [same]
            subst isRead
            obtain ⟨-, coded, place⟩ := (codeword_iff tables.fits tables.short).mp codeword
            rw [List.length_append, List.length_singleton] at coded place
            have low := rank_lt coded
            omega
      · rw [run]
        refine .inr ⟨fun sym word codeword isPrefix => ?_, .inl rfl⟩
        have least := longer sym word codeword isPrefix
        have size := isPrefix.length_le
        rw [rest, List.length_append] at size
        omega

theorem decode_spec {h : Huff} (tables : Represents h lengths) {s : BitReader} (ready : s.Ready) :
    Decodes lengths s (decode h s) := by
  refine decodeLoop_spec tables s [] ready rfl rfl rfl (Nat.zero_le _) ?_
  intro sym word codeword _
  exact ((codeword_iff tables.fits tables.short).mp codeword).1

theorem BitReader.At.decode_cases {h : Huff} {s : BitReader} {input : List UInt8} {all : Bits}
    (here : s.At input all) (tables : Represents h lengths) :
    (∃ sym word s' rest, Codeword lengths sym word ∧ all = word ++ rest ∧ s'.At input rest ∧
        decode h s = .ok (sym, s')) ∨
      (∀ sym word, Codeword lengths sym word → ¬word <+: all) ∧
        (decode h s = .error errInput ∨ decode h s = .error errData) := by
  obtain ⟨ready, rfl, rfl⟩ := here
  rcases decode_spec tables ready with ⟨sym, word, s', codeword, front, ready', input, run⟩ | none
  · exact .inl ⟨sym, word, s', _, codeword, front, ⟨ready', rfl, input⟩, run⟩
  · exact .inr none

/-- Decoding a code word that is there. -/
theorem BitReader.At.decode {h : Huff} {s : BitReader} {input : List UInt8} {sym : Nat}
    {word rest : Bits} (here : s.At input (word ++ rest)) (tables : Represents h lengths)
    (codeword : Codeword lengths sym word) :
    ∃ s', Inflate.decode h s = .ok (sym, s') ∧ s'.At input rest := by
  have isPrefix : word <+: word ++ rest := ⟨rest, rfl⟩
  rcases here.decode_cases tables with ⟨sym', word', s', rest', codeword', front, there, run⟩ | none
  · have same : sym = sym' ∧ word = word' := by
      have isPrefix' : word' <+: word ++ rest := ⟨rest', front.symm⟩
      rcases List.prefix_or_prefix_of_prefix isPrefix isPrefix' with before | after
      · exact codeword.eq_of_isPrefix tables.fits tables.short codeword' before
      · obtain ⟨symEq, wordEq⟩ :=
          codeword'.eq_of_isPrefix tables.fits tables.short codeword after
        exact ⟨symEq.symm, wordEq.symm⟩
    obtain ⟨rfl, rfl⟩ := same
    have sameRest := List.append_cancel_left front
    subst sameRest
    exact ⟨s', run, there⟩
  · exact absurd isPrefix (none.1 sym word codeword)

theorem BitReader.At.decode_ends {h : Huff} {s : BitReader} {input : List UInt8} {all : Bits}
    (here : s.At input all) (tables : Represents h lengths) :
    Ends Failure (fun result => ∃ word rest, Codeword lengths result.1 word ∧ all = word ++ rest ∧
      result.2.At input rest) (Inflate.decode h s) := by
  rcases here.decode_cases tables with ⟨sym, word, s', rest, codeword, front, there, run⟩ | none
  · rw [run]
    exact .ok ⟨word, rest, codeword, front, there⟩
  · rcases none.2 with run | run
    · rw [run]
      exact .error (.inr (.inr rfl))
    · rw [run]
      exact .error (.inl rfl)

end Systrix.Inflate
