import Systrix.Inflate.Huffman

/-!
# The codes of a block

`build_dynamic` reads the description of the codes of a dynamic block and builds
their tables; `build_fixed` builds the tables of the fixed codes.
-/

namespace Systrix.Inflate

open Machine BitString CanonicalCode Fallible Deflate BitReader

variable {s : BitReader} {input : List UInt8} {rest all : Bits}

/-! ## The code length code -/

theorem clenOrder_eq : clenOrder = codeLengthOrder := rfl

theorem arrange_short {sent : List Nat} (small : ∀ len ∈ sent, len < 8) :
    ∀ len ∈ arrange sent, len ≤ maxBits := by
  intro len member
  obtain ⟨sym, -, rfl⟩ := List.mem_map.mp member
  have bound : maxBits = 15 := rfl
  rw [List.getD_eq_getElem?_getD]
  cases found : sent[codeLengthOrder.idxOf sym]? with
  | none => exact Nat.zero_le _
  | some len =>
      have fits := small len (List.mem_of_getElem? found)
      rw [Option.getD_some]
      omega

theorem length_arrange (sent : List Nat) : (arrange sent).length = 19 := by simp [arrange]

/-- Storing the next length at its place in the alphabet. -/
theorem arrange_concat {sent : List Nat} (len : Nat) (room : sent.length < codeLengthOrder.length) :
    (arrange sent).set codeLengthOrder[sent.length] len = arrange (sent ++ [len]) := by
  have distinct : codeLengthOrder.Nodup := by decide
  refine List.ext_getElem (by simp [arrange]) fun sym left right => ?_
  have inside : sym < 19 := by simpa [arrange] using right
  have listed : ∀ sym < 19, sym ∈ codeLengthOrder := by decide
  rw [List.getElem_set]
  by_cases here : codeLengthOrder[sent.length] = sym
  · subst here
    simp [arrange, distinct.idxOf_getElem]
  · have elsewhere : codeLengthOrder.idxOf sym ≠ sent.length := by
      intro same
      apply here
      rw [← List.getElem_idxOf (List.idxOf_lt_length_iff.mpr (listed sym inside))]
      congr 1
      exact same.symm
    rw [if_neg here]
    simp only [arrange, List.getElem_map, List.getElem_range]
    rcases Nat.lt_or_gt_of_ne elsewhere with before | after
    · rw [List.getD_append _ _ _ _ before]
    · rw [List.getD_eq_default _ _ (Nat.le_of_lt after), List.getD_eq_default]
      rw [List.length_append, List.length_singleton]
      exact after

theorem readClens_step (sent : List Nat) (len : Nat) (s : BitReader)
    (room : sent.length < codeLengthOrder.length) :
    (do
      let position ← readAt clenOrder sent.length
      let clens ← writeAt (arrange sent) position len
      pure (clens, s)) = Except.ok (ε := Stop) (arrange (sent ++ [len]), s) := by
  have listed : ∀ i (inside : i < codeLengthOrder.length), codeLengthOrder[i] < 19 := by decide
  rw [clenOrder_eq, readAt_of_lt room, ok_bind,
    writeAt_of_lt (by rw [length_arrange]; exact listed _ room), ok_bind, arrange_concat len room]
  rfl

/-- Reading a sent list of code length code lengths. -/
theorem readClens_of_sent {sent : List Nat} (room : sent.length ≤ 19) (small : ∀ len ∈ sent, len < 8)
    (here : s.At input (sent.flatMap (lsbBits 3) ++ rest)) :
    ∃ s', readClens sent.length s = .ok (arrange sent, s') ∧ s'.At input rest := by
  have ends : Ends (fun _ => False) (fun result : List Nat × BitReader =>
      result.1 = arrange (sent.take sent.length) ∧
        result.2.At input ((sent.drop sent.length).flatMap (lsbBits 3) ++ rest))
      (readClens sent.length s) := by
    unfold readClens
    refine Ends.foldRange (fun i (result : List Nat × BitReader) =>
      result.1 = arrange (sent.take i) ∧
        result.2.At input ((sent.drop i).flatMap (lsbBits 3) ++ rest)) ⟨rfl, here⟩ ?_
    rintro i inside ⟨clens, s⟩ ⟨known, there⟩
    dsimp only at known there ⊢
    subst known
    rw [List.drop_eq_getElem_cons inside, List.flatMap_cons, List.append_assoc] at there
    obtain ⟨s', run, next⟩ := there.bits (length_lsbBits _ _) (by decide : 3 ≤ 16)
    have fits : sent[i] < 2 ^ 3 := small _ (List.getElem_mem inside)
    have value : lsbValue (lsbBits 3 sent[i]) = sent[i] := by
      rw [lsbValue_lsbBits, Nat.mod_eq_of_lt fits]
    have taken : (sent.take i).length = i := List.length_take_of_le (Nat.le_of_lt inside)
    have order : codeLengthOrder.length = 19 := rfl
    have step := readClens_step (sent.take i) sent[i] s' (by omega)
    rw [taken] at step
    rw [run, ok_bind, value, step, ← List.take_succ_eq_append_getElem inside]
    exact .ok ⟨rfl, next⟩
  obtain ⟨⟨clens, s'⟩, run, rfl, there⟩ := ends.exists_ok
  rw [List.take_length] at run
  rw [List.drop_length] at there
  exact ⟨s', run, there⟩

theorem readClens_ends {ncode : Nat} (room : ncode ≤ 19) (here : s.At input all) :
    Ends Failure (fun result => ∃ sent rest, sent.length = ncode ∧ (∀ len ∈ sent, len < 8) ∧
      all = sent.flatMap (lsbBits 3) ++ rest ∧ result.1 = arrange sent ∧ result.2.At input rest)
      (readClens ncode s) := by
  unfold readClens
  refine Ends.foldRange (fun i (result : List Nat × BitReader) =>
    ∃ sent rest, sent.length = i ∧ (∀ len ∈ sent, len < 8) ∧
      all = sent.flatMap (lsbBits 3) ++ rest ∧ result.1 = arrange sent ∧ result.2.At input rest) ?_ ?_
  · exact ⟨[], all, rfl, by simp, rfl, rfl, here⟩
  rintro i inside ⟨clens, s⟩ ⟨sent, rest, rfl, small, front, known, there⟩
  dsimp only at known there ⊢
  subst known
  refine Ends.bind (there.bits_ends (by decide : 3 ≤ 16)) ?_
  rintro ⟨len, s'⟩ ⟨word, rest', size, rfl, value, next⟩
  dsimp only at value next ⊢
  have order : codeLengthOrder.length = 19 := rfl
  have fits : len < 8 := by
    have bound := lsbValue_lt word
    rw [size] at bound
    omega
  rw [readClens_step sent len s' (by omega)]
  refine .ok ⟨sent ++ [len], rest', by simp, ?_, ?_, rfl, next⟩
  · intro other member
    rcases List.mem_append.mp member with old | new
    · exact small other old
    · rw [List.mem_singleton.mp new]
      exact fits
  · have same : lsbBits 3 len = word := by
      rw [value, ← size, lsbBits_lsbValue]
    rw [front, List.flatMap_append, List.flatMap_singleton, same, List.append_assoc]

/-! ## Run-length coded code lengths -/

/-- The array of code lengths starts with the ones known. -/
structure Filled (array known : List Nat) : Prop where
  size : array.length = 288 + 30
  front : array.take known.length = known

theorem Filled.append_singleton {array known : List Nat} (filled : Filled array known)
    (room : known.length < 288 + 30) (val : Nat) :
    Filled (array.set known.length val) (known ++ [val]) := by
  have inside : known.length < array.length := by rw [filled.size]; exact room
  refine ⟨by rw [List.length_set, filled.size], ?_⟩
  rw [List.length_append, List.length_singleton,
    List.take_succ_eq_append_getElem (by rw [List.length_set]; exact inside),
    List.take_set_of_le (Nat.le_refl _), filled.front, List.getElem_set_self]

theorem Filled.repeatLength {array known : List Nat} (filled : Filled array known) (val rep : Nat)
    (room : known.length + rep ≤ 288 + 30) :
    ∃ array', Inflate.repeatLength val rep known.length array = .ok array' ∧
      Filled array' (known ++ List.replicate rep val) := by
  induction rep generalizing array known with
  | zero => exact ⟨array, rfl, by simpa using filled⟩
  | succ rep ih =>
      have inside : known.length < array.length := by rw [filled.size]; omega
      have next := filled.append_singleton (by omega) val
      have room' : (known ++ [val]).length + rep ≤ 288 + 30 := by
        rw [List.length_append, List.length_singleton]
        omega
      obtain ⟨array', run, filled'⟩ := ih next room'
      refine ⟨array', ?_, ?_⟩
      · rw [Inflate.repeatLength, writeAt_of_lt inside, ok_bind]
        simpa using run
      · simpa [List.replicate_succ] using filled'

theorem Filled.getLast {array known : List Nat} {previous : Nat} (filled : Filled array known)
    (last : known.getLast? = some previous) :
    readAt array (known.length - 1) = .ok previous := by
  have nonempty : known ≠ [] := by
    rintro rfl
    cases last
  have positive := List.length_pos_iff.mpr nonempty
  apply readAt_of_getElem?
  calc
    array[known.length - 1]? = (array.take known.length)[known.length - 1]? :=
      (List.getElem?_take_of_lt (by omega)).symm
    _ = known[known.length - 1]? := congrArg (·[known.length - 1]?) filled.front
    _ = some previous := by rw [← List.getLast?_eq_getElem?, last]

/-- A repeat symbol that is followed by its extra bits. -/
theorem readRepeat_copyPrevious {array known : List Nat} {previous : Nat} {extra : Bits}
    (filled : Filled array known) (last : known.getLast? = some previous)
    (size : extra.length = 2) (here : s.At input (extra ++ rest)) :
    ∃ s', readRepeat 16 known.length array s = .ok (previous, 3 + lsbValue extra, s') ∧
      s'.At input rest := by
  have nonempty : known.length ≠ 0 := by
    intro isEmpty
    rw [List.length_eq_zero_iff.mp isEmpty] at last
    cases last
  obtain ⟨s', run, there⟩ := here.bits size (by decide)
  refine ⟨s', ?_, there⟩
  rw [readRepeat, if_pos rfl, if_neg nonempty, filled.getLast last, ok_bind, run, ok_bind,
    Nat.add_comm]
  rfl

theorem readRepeat_zeros (array : List Nat) (i : Nat) {extra : Bits} (long : Bool)
    (size : extra.length = if long then 7 else 3) (here : s.At input (extra ++ rest)) :
    ∃ s', readRepeat (if long then 18 else 17) i array s =
        .ok (0, (if long then 11 else 3) + lsbValue extra, s') ∧ s'.At input rest := by
  cases long with
  | true =>
      obtain ⟨s', run, there⟩ := here.bits size (by decide)
      refine ⟨s', ?_, there⟩
      simp only [if_true] at run ⊢
      simp [readRepeat, run, Nat.add_comm, pure, Except.pure]
  | false =>
      obtain ⟨s', run, there⟩ := here.bits size (by decide)
      refine ⟨s', ?_, there⟩
      simp only [Bool.false_eq_true, if_false] at run ⊢
      simp [readRepeat, run, Nat.add_comm, pure, Except.pure]

/-- One round of the loop on a repeat symbol. -/
theorem readLengths_repeat {clcode : Huff} {code known array : List Nat} {word more bits : Bits}
    {total sym val rep : Nat} (tables : Represents clcode code) (codeword : Codeword code sym word)
    (isRepeat : 16 ≤ sym) (filled : Filled array known) (positive : 0 < rep)
    (room : known.length + rep ≤ total) (bound : total ≤ 288 + 30)
    (here : s.At input (word ++ more))
    (step : ∀ s', s'.At input more → ∃ s'',
      readRepeat sym known.length array s' = .ok (val, rep, s'') ∧ s''.At input bits) :
    ∃ array' s', Filled array' (known ++ List.replicate rep val) ∧ s'.At input bits ∧ ∀ fuel,
      readLengths clcode total (fuel + 1) known.length array s =
        readLengths clcode total fuel (known ++ List.replicate rep val).length array' s' := by
  obtain ⟨s', run, there⟩ := here.decode tables codeword
  obtain ⟨s'', run', there'⟩ := step s' there
  obtain ⟨array', written, filled'⟩ := filled.repeatLength val rep (by omega)
  refine ⟨array', s'', filled', there', fun fuel => ?_⟩
  rw [readLengths, if_pos (by omega), run, ok_bind]
  dsimp only
  rw [if_neg (by omega), run', ok_bind]
  dsimp only
  rw [if_neg (by omega), written, ok_bind, List.length_append, List.length_replicate]

/-- The loop reads run-length coded code lengths that are there. -/
theorem readLengths_of_codeLengths {clcode : Huff} {code known lengths : List Nat} {bits : Bits}
    {total fuel : Nat} {array : List Nat} (tables : Represents clcode code)
    (runs : CodeLengths code total bits known rest lengths) (bound : total ≤ 288 + 30)
    (enough : total < fuel + known.length) (filled : Filled array known)
    (here : s.At input bits) :
    ∃ array' s', readLengths clcode total fuel known.length array s = .ok (array', s') ∧
      Filled array' lengths ∧ s'.At input rest := by
  induction runs generalizing fuel array s with
  | @complete rest known full =>
      obtain ⟨fuel, rfl⟩ : ∃ less, fuel = less + 1 := ⟨fuel - 1, by omega⟩
      refine ⟨array, s, ?_, filled, here⟩
      rw [readLengths, if_neg (by omega)]
      rfl
  | @single word bits rest known lengths len small room codeword _ ih =>
      obtain ⟨fuel, rfl⟩ : ∃ less, fuel = less + 1 := ⟨fuel - 1, by omega⟩
      obtain ⟨s', run, there⟩ := here.decode tables codeword
      have grown : (known ++ [len]).length = known.length + 1 := by simp
      have enough' : total < fuel + (known ++ [len]).length := by
        rw [grown]
        omega
      obtain ⟨array', s'', run', filled', done⟩ :=
        ih enough' (filled.append_singleton (by omega) len) there
      refine ⟨array', s'', ?_, filled', done⟩
      rw [grown] at run'
      rw [readLengths, if_pos room, run, ok_bind]
      dsimp only
      rw [if_pos small, writeAt_of_lt (by rw [filled.size]; omega), ok_bind, run']
  | @copyPrevious word extra bits rest known lengths previous codeword size last room _ ih =>
      obtain ⟨fuel, rfl⟩ : ∃ less, fuel = less + 1 := ⟨fuel - 1, by omega⟩
      obtain ⟨array', s', filled', there, round⟩ :=
        readLengths_repeat tables codeword (by decide) filled (by omega) room bound here
          fun s' there => readRepeat_copyPrevious filled last size there
      rw [round]
      exact ih (by simp only [List.length_append, List.length_replicate]; omega) filled' there
  | @zeros word extra bits rest known lengths long codeword size room _ ih =>
      obtain ⟨fuel, rfl⟩ : ∃ less, fuel = less + 1 := ⟨fuel - 1, by split at room <;> omega⟩
      obtain ⟨array', s', filled', there, round⟩ :=
        readLengths_repeat tables codeword (by split <;> decide) filled (by split <;> omega) room
          bound here fun s' there => readRepeat_zeros array known.length long size there
      rw [round]
      exact ih (by simp only [List.length_append, List.length_replicate]; split <;> omega) filled'
        there

theorem readRepeat_ends {array known : List Nat} {sym : Nat} (filled : Filled array known)
    (here : s.At input all) (isRepeat : 16 ≤ sym) (range : sym < 19) :
    Ends Failure (fun result => 0 < result.2.1 ∧ ∃ extra rest, all = extra ++ rest ∧
        result.2.2.At input rest ∧
        (sym = 16 ∧ extra.length = 2 ∧ known.getLast? = some result.1 ∧
            result.2.1 = 3 + lsbValue extra ∨
          ∃ long : Bool, sym = (if long then 18 else 17) ∧
            extra.length = (if long then 7 else 3) ∧ result.1 = 0 ∧
            result.2.1 = (if long then 11 else 3) + lsbValue extra))
      (readRepeat sym known.length array s) := by
  unfold readRepeat
  split_ifs with copies empty zeros
  · exact .error (.inl rfl)
  · obtain ⟨previous, last⟩ : ∃ previous, known.getLast? = some previous := by
      rw [List.getLast?_eq_getElem?]
      exact ⟨_, List.getElem?_eq_getElem (by omega)⟩
    rw [filled.getLast last, ok_bind]
    refine Ends.bind (here.bits_ends (by decide)) ?_
    rintro ⟨value, s'⟩ ⟨extra, rest, size, front, rfl, there⟩
    exact .ok ⟨Nat.succ_pos _, extra, rest, front, there,
      .inl ⟨copies, size, last, Nat.add_comm _ _⟩⟩
  · refine Ends.bind (here.bits_ends (by decide)) ?_
    rintro ⟨value, s'⟩ ⟨extra, rest, size, front, rfl, there⟩
    exact .ok ⟨Nat.succ_pos _, extra, rest, front, there,
      .inr ⟨false, zeros, size, rfl, Nat.add_comm _ _⟩⟩
  · refine Ends.bind (here.bits_ends (by decide)) ?_
    rintro ⟨value, s'⟩ ⟨extra, rest, size, front, rfl, there⟩
    have long : sym = 18 := by omega
    exact .ok ⟨Nat.succ_pos _, extra, rest, front, there,
      .inr ⟨true, long, size, rfl, Nat.add_comm _ _⟩⟩

/-- What the loop has read is run-length coded code lengths. -/
theorem readLengths_ends {clcode : Huff} {code known array : List Nat} {total fuel : Nat}
    (tables : Represents clcode code) (alphabet : code.length = 19) (bound : total ≤ 288 + 30)
    (within : known.length ≤ total) (enough : total < fuel + known.length)
    (filled : Filled array known) (here : s.At input all) :
    Ends Failure (fun result => ∃ lengths rest, CodeLengths code total all known rest lengths ∧
      Filled result.1 lengths ∧ result.2.At input rest)
      (readLengths clcode total fuel known.length array s) := by
  induction fuel generalizing known array s all with
  | zero => omega
  | succ fuel ih =>
      rw [readLengths]
      split_ifs with room
      swap
      · exact .ok ⟨known, all, .complete (by omega), filled, here⟩
      refine Ends.bind (here.decode_ends tables) ?_
      rintro ⟨sym, s'⟩ ⟨word, rest, codeword, rfl, there⟩
      dsimp only at codeword there ⊢
      have range : sym < 19 := by
        obtain ⟨len, -, coded, -⟩ := codeword
        rw [← alphabet]
        exact (List.getElem?_eq_some_iff.mp coded).1
      split_ifs with single
      · rw [writeAt_of_lt (by rw [filled.size]; omega), ok_bind]
        have grown : (known ++ [sym]).length = known.length + 1 := by simp
        have filled' := filled.append_singleton (by omega) sym
        have next := ih (by omega) (by omega) filled' there
        rw [grown] at next
        refine next.mono ?_
        rintro ⟨array', s''⟩ ⟨lengths, rest', runs, filled'', done⟩
        exact ⟨lengths, rest', .single single room codeword runs, filled'', done⟩
      · refine Ends.bind (readRepeat_ends filled there (by omega) range) ?_
        rintro ⟨val, rep, s''⟩ ⟨positive, extra, rest', rfl, there', kind⟩
        dsimp only at positive there' kind ⊢
        split_ifs with tooMany
        · exact .error (.inl rfl)
        obtain ⟨array', written, filled'⟩ := filled.repeatLength val rep (by omega)
        have grown : (known ++ List.replicate rep val).length = known.length + rep := by simp
        rw [written, ok_bind, ← grown]
        refine (ih (by omega) (by omega) filled' there').mono ?_
        rintro ⟨final, last⟩ ⟨lengths, rest'', runs, filled'', done⟩
        refine ⟨lengths, rest'', ?_, filled'', done⟩
        rcases kind with ⟨rfl, size, previous, rfl⟩ | ⟨long, rfl, size, rfl, rfl⟩
        · exact .copyPrevious codeword size previous (by omega) runs
        · exact .zeros codeword size (by omega) runs

/-- All code lengths that can be sent are at most 15, and all are sent. -/
theorem CodeLengths.all_short {code known lengths : List Nat} {total : Nat} {bits : Bits}
    (runs : CodeLengths code total bits known rest lengths) (short : ∀ len ∈ known, len ≤ maxBits) :
    lengths.length = total ∧ ∀ len ∈ lengths, len ≤ maxBits := by
  induction runs with
  | complete full => exact ⟨full, short⟩
  | single small _ _ _ ih =>
      refine ih fun len member => ?_
      rcases List.mem_append.mp member with old | new
      · exact short len old
      · rw [List.mem_singleton.mp new]
        exact Nat.le_of_lt_succ small
  | copyPrevious _ _ last _ _ ih =>
      refine ih fun len member => ?_
      rcases List.mem_append.mp member with old | new
      · exact short len old
      · rw [List.eq_of_mem_replicate new]
        exact short _ (List.mem_of_getLast? last)
  | zeros _ _ _ _ ih =>
      refine ih fun len member => ?_
      rcases List.mem_append.mp member with old | new
      · exact short len old
      · rw [List.eq_of_mem_replicate new]
        exact Nat.zero_le _

/-! ## Tables of a block -/

/-- `huff_build` reads no code length beyond the `n` it is told of. -/
theorem huffBuild_take (h : Huff) (lengths : List Nat) (n : Nat) :
    huffBuild h lengths n = huffBuild h (lengths.take n) n := by
  have same : ∀ symbol < n, readAt lengths symbol = readAt (lengths.take n) symbol := by
    intro symbol below
    rw [readAt, readAt, List.getElem?_take_of_lt below]
  have counts : countLengths lengths n = countLengths (lengths.take n) n :=
    foldRange_congr fun symbol below counts => by rw [same symbol below]
  have symbols : ∀ offs symbols,
      fillSymbols lengths offs symbols n = fillSymbols (lengths.take n) offs symbols n :=
    fun offs symbols => foldRange_congr fun symbol below tables => by rw [same symbol below]
  simp only [huffBuild, counts, symbols]

/-- The tables of a block are those of its codes. -/
structure InflateCtx.Tables (s : InflateCtx) (literals distances : List Nat) : Prop where
  literal : Represents s.lencode literals
  distance : Represents s.distcode distances

/-- The symbol arrays are there, whatever they hold. -/
structure InflateCtx.Sized (s : InflateCtx) : Prop where
  literal : s.lencode.symbols.length = 288
  distance : s.distcode.symbols.length = 288

theorem huffBuild_ends {h : Huff} {array lengths : List Nat} {n : Nat}
    (symbolsLength : h.symbols.length = 288) (front : array.take n = lengths)
    (size : lengths.length = n) (short : ∀ len ∈ lengths, len ≤ maxBits) (bound : n ≤ 288) :
    Ends (fun stop => stop = errData ∧ ¬Kraft maxBits lengths)
      (fun h' => Kraft maxBits lengths ∧ Represents h' lengths) (huffBuild h array n) := by
  rw [huffBuild_take, front, ← size]
  exact huffBuild_spec symbolsLength short (by omega)

/-- Building the table of a prefix code succeeds. -/
theorem huffBuild_of_kraft {h : Huff} {array lengths : List Nat} {n : Nat}
    (symbolsLength : h.symbols.length = 288) (front : array.take n = lengths)
    (size : lengths.length = n) (short : ∀ len ∈ lengths, len ≤ maxBits) (bound : n ≤ 288)
    (kraft : Kraft maxBits lengths) :
    ∃ h', huffBuild h array n = .ok h' ∧ Represents h' lengths := by
  have never : Ends (fun _ => False) (fun h' => Kraft maxBits lengths ∧ Represents h' lengths)
      (huffBuild h array n) :=
    (huffBuild_ends symbolsLength front size short bound).imp (fun _ stops => stops.2 kraft)
      fun _ holds => holds
  obtain ⟨h', run, -, tables⟩ := never.exists_ok
  exact ⟨h', run, tables⟩

theorem buildFixed_spec {s : InflateCtx} (sized : s.Sized) :
    ∃ s', buildFixed s = .ok s' ∧ s'.reader = s.reader ∧ s'.sink = s.sink ∧
      s'.Tables fixedLiterals (List.replicate 30 5) := by
  have literals : fixedLengths.take 288 = fixedLiterals :=
    by decide +kernel
  have distances : (List.replicate 30 5 ++ fixedLengths.drop 30).take 30 = List.replicate 30 5 := rfl
  obtain ⟨lencode, runLen, literal⟩ := huffBuild_of_kraft sized.literal literals
    (by decide +kernel) (by decide +kernel) (by decide) (by decide +kernel)
  obtain ⟨distcode, runDist, distance⟩ := huffBuild_of_kraft sized.distance distances
    List.length_replicate (by decide) (by decide) (by decide)
  refine ⟨{ s with lencode := lencode, distcode := distcode }, ?_, rfl, rfl, literal, distance⟩
  rw [buildFixed, runLen, ok_bind, runDist]
  rfl

theorem sized_empty : Huff.empty.symbols.length = 288 := List.length_replicate

theorem filled_replicate : Filled (List.replicate (288 + 30) 0) [] := ⟨List.length_replicate, rfl⟩

/-- The end-of-block length is the one at its place among the known lengths. -/
theorem Filled.readAt {array known : List Nat} (filled : Filled array known) {i : Nat}
    (inside : i < known.length) : Inflate.readAt array i = .ok known[i] := by
  apply readAt_of_getElem?
  calc
    array[i]? = (array.take known.length)[i]? := (List.getElem?_take_of_lt inside).symm
    _ = known[i]? := congrArg (·[i]?) filled.front
    _ = some known[i] := List.getElem?_eq_getElem inside

theorem Filled.take {array known : List Nat} (filled : Filled array known) {n : Nat}
    (within : n ≤ known.length) : array.take n = known.take n := by
  rw [← Nat.min_eq_left within, ← List.take_take, filled.front]
  simp [within]

theorem Filled.drop_take {array known : List Nat} (filled : Filled array known) (n : Nat) :
    (array.drop n).take (known.length - n) = known.drop n := by
  rw [← List.drop_take, filled.front]

/-- `build_dynamic` builds the tables of the codes that are described. -/
theorem buildDynamic_of_codes {s : InflateCtx} {bits : Bits} {literals distances : List Nat}
    {word : Bits} (codes : DynamicCodes bits rest literals distances)
    (ended : Codeword literals 256 word) (sized : s.Sized) (here : s.reader.At input bits) :
    ∃ s', buildDynamic s = .ok s' ∧ s'.reader.At input rest ∧ s'.sink = s.sink ∧
      s'.Tables literals distances := by
  cases codes with
  | @intro hlit hdist hclen sent lengths bits rest literalRange distanceRange codeRange sentLength
      sentSmall codeKraft runs literalKraft distanceKraft =>
      obtain ⟨r1, run1, here1⟩ := here.bits (length_lsbBits _ _) (by decide)
      obtain ⟨r2, run2, here2⟩ := here1.bits (length_lsbBits _ _) (by decide)
      obtain ⟨r3, run3, here3⟩ := here2.bits (length_lsbBits _ _) (by decide)
      have hlitValue : lsbValue (lsbBits 5 hlit) = hlit := by
        rw [lsbValue_lsbBits, Nat.mod_eq_of_lt (by omega)]
      have hdistValue : lsbValue (lsbBits 5 hdist) = hdist := by
        rw [lsbValue_lsbBits, Nat.mod_eq_of_lt (by omega)]
      have hclenValue : lsbValue (lsbBits 4 hclen) = hclen := by
        rw [lsbValue_lsbBits, Nat.mod_eq_of_lt (by omega)]
      obtain ⟨r4, run4, here4⟩ := readClens_of_sent (by omega) sentSmall here3
      have codeShort := arrange_short sentSmall
      obtain ⟨clcode, run5, codeTables⟩ := huffBuild_of_kraft sized_empty
        (List.take_of_length_le (by rw [length_arrange])) (length_arrange sent) codeShort
        (by decide) codeKraft
      have enough : hlit + 257 + (hdist + 1) <
          hlit + 257 + (hdist + 1) + 1 + ([] : List Nat).length := by
        rw [List.length_nil]
        omega
      obtain ⟨array, r6, run6, filled, here6⟩ := readLengths_of_codeLengths codeTables runs
        (by omega) enough filled_replicate here4
      rw [List.length_nil] at run6
      obtain ⟨total, short⟩ := CodeLengths.all_short runs (by simp)
      have inside : 256 < lengths.length := by omega
      have nonzero : lengths[256] ≠ 0 := by
        obtain ⟨len, positive, coded, -⟩ := ended
        rw [List.getElem?_take_of_lt (by omega), List.getElem?_eq_getElem inside] at coded
        rw [Option.some.inj coded]
        omega
      obtain ⟨lencode, run7, literal⟩ := huffBuild_of_kraft sized.literal
        (filled.take (by omega)) (by rw [List.length_take]; omega)
        (fun len member => short len (List.mem_of_mem_take member)) (by omega) literalKraft
      have restLength : lengths.length - (hlit + 257) = hdist + 1 := by omega
      have back := filled.drop_take (hlit + 257)
      rw [restLength] at back
      obtain ⟨distcode, run8, distance⟩ := huffBuild_of_kraft sized.distance back
        (by rw [List.length_drop]; omega)
        (fun len member => short len (List.mem_of_mem_drop member)) (by omega) distanceKraft
      refine ⟨⟨r6, s.sink, lencode, distcode⟩, ?_, here6, rfl, literal, distance⟩
      rw [buildDynamic, run1, ok_bind, hlitValue]
      dsimp only
      rw [run2, ok_bind, hdistValue]
      dsimp only
      rw [run3, ok_bind, hclenValue]
      dsimp only
      rw [if_neg (by omega), ← sentLength, run4, ok_bind]
      dsimp only
      rw [run5, ok_bind, run6, ok_bind]
      dsimp only
      rw [filled.readAt inside, ok_bind, if_neg nonzero, run7, ok_bind, run8]
      rfl

/-- `build_dynamic` accepts only descriptions of codes. -/
theorem buildDynamic_ends {s : InflateCtx} (sized : s.Sized) (here : s.reader.At input all) :
    Ends Failure (fun s' => ∃ rest literals distances, DynamicCodes all rest literals distances ∧
      s'.reader.At input rest ∧ s'.sink = s.sink ∧ s'.Tables literals distances)
      (buildDynamic s) := by
  have dataFails : ∀ {lengths : List Nat} (stop : Stop),
      stop = errData ∧ ¬Kraft maxBits lengths → Failure stop := fun _ stops => .inl stops.1
  rw [buildDynamic]
  refine Ends.bind (here.bits_ends (by decide)) ?_
  rintro ⟨hlit, r1⟩ ⟨word1, rest1, size1, rfl, value1, here1⟩
  refine Ends.bind (here1.bits_ends (by decide)) ?_
  rintro ⟨hdist, r2⟩ ⟨word2, rest2, size2, rfl, value2, here2⟩
  refine Ends.bind (here2.bits_ends (by decide)) ?_
  rintro ⟨hclen, r3⟩ ⟨word3, rest3, size3, rfl, value3, here3⟩
  dsimp only at value1 value2 value3 here1 here2 here3 ⊢
  split_ifs with range
  · exact .error (.inl rfl)
  have codeRange : hclen < 16 := by
    have bound := lsbValue_lt word3
    rw [size3] at bound
    omega
  refine Ends.bind (readClens_ends (by omega) here3) ?_
  rintro ⟨clens, r4⟩ ⟨sent, rest4, sentLength, sentSmall, rfl, known, here4⟩
  dsimp only at known here4 ⊢
  subst known
  refine Ends.bind ((huffBuild_ends sized_empty (List.take_of_length_le (by rw [length_arrange]))
    (length_arrange sent) (arrange_short sentSmall) (by decide)).imp dataFails
    fun _ holds => holds) ?_
  rintro clcode ⟨codeKraft, codeTables⟩
  have enough : hlit + 257 + (hdist + 1) <
      hlit + 257 + (hdist + 1) + 1 + ([] : List Nat).length := by
    rw [List.length_nil]
    omega
  have lengthsEnds := readLengths_ends codeTables (length_arrange sent)
    (by omega : hlit + 257 + (hdist + 1) ≤ 288 + 30) (Nat.zero_le _) enough filled_replicate here4
  rw [List.length_nil] at lengthsEnds
  refine Ends.bind lengthsEnds ?_
  rintro ⟨array, r5⟩ ⟨lengths, rest5, runs, filled, here5⟩
  dsimp only at filled here5 ⊢
  obtain ⟨total, short⟩ := CodeLengths.all_short runs (by simp)
  have inside : 256 < lengths.length := by omega
  rw [filled.readAt inside, ok_bind]
  split_ifs with unended
  · exact .error (.inl rfl)
  refine Ends.bind ((huffBuild_ends sized.literal (filled.take (by omega))
    (by rw [List.length_take]; omega) (fun len member => short len (List.mem_of_mem_take member))
    (by omega)).imp dataFails fun _ holds => holds) ?_
  rintro lencode ⟨literalKraft, literal⟩
  have restLength : lengths.length - (hlit + 257) = hdist + 1 := by omega
  have back := filled.drop_take (hlit + 257)
  rw [restLength] at back
  refine Ends.bind ((huffBuild_ends sized.distance back (by rw [List.length_drop]; omega)
    (fun len member => short len (List.mem_of_mem_drop member)) (by omega)).imp dataFails
    fun _ holds => holds) ?_
  rintro distcode ⟨distanceKraft, distance⟩
  refine .ok ⟨rest5, _, _, ?_, here5, rfl, literal, distance⟩
  have same1 : lsbBits 5 hlit = word1 := by rw [value1, ← size1, lsbBits_lsbValue]
  have same2 : lsbBits 5 hdist = word2 := by rw [value2, ← size2, lsbBits_lsbValue]
  have same3 : lsbBits 4 hclen = word3 := by rw [value3, ← size3, lsbBits_lsbValue]
  rw [← same1, ← same2, ← same3]
  exact .intro (by omega) (by omega) codeRange sentLength sentSmall codeKraft runs literalKraft
    distanceKraft

end Systrix.Inflate
