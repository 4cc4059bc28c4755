import Systrix.Inflate.CodeTables

/-!
# Blocks of inflate

Stored blocks, the symbol loop of compressed blocks and the block loop, each
against the relation of the format it decodes.
-/

namespace Systrix.Inflate

open Machine BitString CanonicalCode Fallible Deflate BitReader

variable {input : List UInt8} {buffer : Nat → UInt8} {out_len : Nat} {rest all : Bits}
  {out : List UInt8}

/-! ## Output -/

/-- The bytes written so far. -/
def Sink.produced (s : Sink) : List UInt8 := (List.range s.out_pos).map s.out

/-- `out` has been written to the start of `buffer` and nothing behind it. -/
structure Sink.At (s : Sink) (buffer : Nat → UInt8) (out_len : Nat) (out : List UInt8) : Prop where
  window : s.window = none
  capacity : s.out_len = out_len
  produced : s.produced = out
  room : out.length ≤ out_len
  behind : ∀ i, out.length ≤ i → s.out i = buffer i

namespace Sink.At

variable {s : Sink}

theorem out_pos (here : s.At buffer out_len out) : s.out_pos = out.length := by
  rw [← here.produced, Sink.produced, List.length_map, List.length_range]

theorem getElem? (here : s.At buffer out_len out) {i : Nat} (inside : i < out.length) :
    out[i]? = some (s.out i) := by
  have below : i < s.out_pos := by rwa [here.out_pos]
  rw [← here.produced, Sink.produced]
  simp [below]

theorem readOut (here : s.At buffer out_len out) {i : Nat} (inside : i < out.length) :
    s.readOut i = .ok (out.getD i 0) := by
  have room := here.room
  rw [Sink.readOut, if_pos (by rw [here.capacity]; omega), List.getD_eq_getElem?_getD,
    here.getElem? inside]
  rfl

/-- `emit` fails exactly when the buffer is full. -/
theorem emit (here : s.At buffer out_len out) (b : UInt8) :
    Ends (fun stop => stop = errOutput ∧ out_len ≤ out.length)
      (fun s' => s'.At buffer out_len (out ++ [b])) (Inflate.emit b s) := by
  have position := here.out_pos
  rw [Inflate.emit]
  split_ifs with full
  · rw [here.capacity, position] at full
    exact .error ⟨rfl, full⟩
  · rw [here.window]
    refine .ok ⟨rfl, here.capacity, ?_, ?_, ?_⟩
    · simp only [Sink.produced, List.range_succ, List.map_append, List.map_singleton,
        Function.update_self]
      congr 1
      rw [← here.produced, Sink.produced]
      refine List.map_congr_left fun i member => Function.update_of_ne ?_ _ _
      exact Nat.ne_of_lt (List.mem_range.mp member)
    · rw [here.capacity, position] at full
      rw [List.length_append, List.length_singleton]
      omega
    · intro i beyond
      rw [List.length_append, List.length_singleton] at beyond
      dsimp only
      rw [Function.update_of_ne (by omega)]
      exact here.behind i (by omega)

end Sink.At

@[simp] theorem length_copyBack (out : List UInt8) (distance length : Nat) :
    (copyBack out distance length).length = out.length + length := by
  induction length with
  | zero => rfl
  | succ length ih =>
      rw [copyBack, List.length_append, List.length_singleton, ih]
      omega

/-- The copy loop after `i` bytes. -/
theorem copyOut_ends {s : Sink} {dist i : Nat} (len : Nat) (positive : 0 < dist)
    (within : dist ≤ out.length) (here : s.At buffer out_len (copyBack out dist i)) :
    Ends (fun stop => stop = errOutput ∧ out_len < out.length + (i + len))
      (fun s' => s'.At buffer out_len (copyBack out dist (i + len)))
      (copyOut (out.length - dist) len i s) := by
  induction len generalizing s i with
  | zero => exact .ok here
  | succ len ih =>
      have size := length_copyBack out dist i
      have index : out.length - dist + i = (copyBack out dist i).length - dist := by omega
      rw [copyOut, index, here.readOut (by omega), ok_bind]
      refine Ends.bind ((here.emit _).imp (fun stop stops => ⟨stops.1, by omega⟩)
        fun _ holds => holds) ?_
      intro s' there
      have next := ih (s := s') (i := i + 1) there
      have count : i + 1 + len = i + (len + 1) := by omega
      rwa [count] at next

/-- `emit_match` appends the match, or fails because it does not fit. -/
theorem Sink.At.emitMatch {s : Sink} {dist : Nat} (here : s.At buffer out_len out) (len : Nat)
    (positive : 0 < dist) (within : dist ≤ out.length) :
    Ends (fun stop => stop = errOutput ∧ out_len < out.length + len)
      (fun s' => s'.At buffer out_len (copyBack out dist len)) (Inflate.emitMatch dist len s) := by
  rw [Inflate.emitMatch, if_neg (by rw [here.out_pos]; omega), here.window, here.out_pos]
  have copied := copyOut_ends (i := 0) len positive within here
  rwa [Nat.zero_add] at copied

theorem Sink.At.emitMatch_far {s : Sink} {dist : Nat} (here : s.At buffer out_len out) (len : Nat)
    (far : out.length < dist) : Inflate.emitMatch dist len s = .error errData := by
  rw [Inflate.emitMatch, if_pos (by rw [here.out_pos]; exact far)]
  rfl

/-! ## Stored blocks -/

theorem copyStored_ends {reader : BitReader} {sink : Sink} {k : Nat} {data tail : List UInt8}
    (source : reader.input.drop (reader.in_pos + k) = data ++ tail)
    (here : sink.At buffer out_len out) :
    Ends (fun stop => stop = errOutput ∧ out_len < out.length + data.length)
      (fun sink' => sink'.At buffer out_len (out ++ data))
      (copyStored reader data.length k sink) := by
  induction data generalizing sink k out with
  | nil => exact .ok (by rwa [List.append_nil])
  | cons byte data ih =>
      have first : reader.input[reader.in_pos + k]? = some byte := by
        have head := congrArg List.head? source
        rwa [List.head?_drop, List.cons_append, List.head?_cons] at head
      have others : reader.input.drop (reader.in_pos + (k + 1)) = data ++ tail := by
        have back := congrArg List.tail source
        rwa [List.tail_drop, List.cons_append, List.tail_cons, Nat.add_assoc] at back
      rw [List.length_cons, copyStored, readAt_of_getElem? first, ok_bind]
      refine Ends.bind ((here.emit byte).imp (fun stop stops => ⟨stops.1, by omega⟩)
        fun _ holds => holds) ?_
      intro sink' there
      refine (ih others there).imp (fun stop stops => ⟨stops.1, ?_⟩) fun _ holds => ?_
      · have far := stops.2
        rw [List.length_append, List.length_singleton] at far
        omega
      · rwa [List.append_assoc] at holds

/-- A stored block after its four header bytes. -/
theorem inflateStored_eq {s : InflateCtx} {low high low' high' : UInt8} {bytes : List UInt8}
    (source : s.reader.input.drop s.reader.in_pos = [low, high, low', high'] ++ bytes) :
    inflateStored s =
      (let len := low.toNat + high.toNat * 2 ^ 8
      if 2 ^ 16 - 1 - len ≠ low'.toNat + high'.toNat * 2 ^ 8 then throw errData
      else if s.reader.input.length < s.reader.in_pos + 4 + len then throw errInput
      else do
        let sink ← copyStored ⟨s.reader.input, s.reader.in_pos + 4, 0, 0⟩ len 0 s.sink
        pure { s with reader := ⟨s.reader.input, s.reader.in_pos + 4 + len, 0, 0⟩,
                      sink := sink }) := by
  have small : low.toNat < 256 := low.toNat_lt
  have small' : high.toNat < 256 := high.toNat_lt
  have total := congrArg List.length source
  have four : ([low, high, low', high'] : List UInt8).length = 4 := rfl
  rw [List.length_drop, List.length_append] at total
  have byteAt : ∀ k (inside : k < 4), readAt s.reader.input (s.reader.in_pos + k) =
      .ok ([low, high, low', high'].get ⟨k, inside⟩) := by
    intro k inside
    apply readAt_of_getElem?
    rw [← List.getElem?_drop, source, List.getElem?_append_left inside]
    exact List.getElem?_eq_getElem inside
  have first := byteAt 0 (by decide)
  rw [Nat.add_zero] at first
  have mask : (low.toNat + high.toNat * 2 ^ 8) ^^^ 0xFFFF =
      2 ^ 16 - 1 - (low.toNat + high.toNat * 2 ^ 8) :=
    xor_ones (show low.toNat + high.toNat * 2 ^ 8 < 2 ^ 16 by omega)
  rw [inflateStored, if_neg (by simp only [in_len]; omega)]
  dsimp only
  rw [first, ok_bind, byteAt 1 (by decide), ok_bind, byteAt 2 (by decide), ok_bind,
    byteAt 3 (by decide), ok_bind]
  simp only [List.get_eq_getElem, List.getElem_cons_zero, List.getElem_cons_succ, in_len,
    or_shiftLeft_byte, mask]

/-- A stored block that starts with the header of `data`. -/
theorem inflateStored_ends {s : InflateCtx} {low high low' high' : UInt8} {data tail : List UInt8}
    (source : s.reader.input.drop s.reader.in_pos = [low, high, low', high'] ++ (data ++ tail))
    (size : low.toNat + high.toNat * 2 ^ 8 = data.length)
    (check : low'.toNat + high'.toNat * 2 ^ 8 = 2 ^ 16 - 1 - data.length)
    (here : s.sink.At buffer out_len out) :
    Ends (fun stop => stop = errOutput ∧ out_len < out.length + data.length)
      (fun s' => s'.reader.At s.reader.input (bytesBits tail) ∧
        s'.sink.At buffer out_len (out ++ data) ∧
        s'.lencode = s.lencode ∧ s'.distcode = s.distcode)
      (inflateStored s) := by
  have total := congrArg List.length source
  have four : ([low, high, low', high'] : List UInt8).length = 4 := rfl
  rw [List.length_drop, List.length_append, List.length_append] at total
  have body : s.reader.input.drop (s.reader.in_pos + 4) = data ++ tail := by
    rw [← List.drop_drop, source]
    exact List.drop_left' rfl
  rw [inflateStored_eq source]
  simp only [size, check]
  rw [if_neg (by simp), if_neg (by omega)]
  refine Ends.bind (copyStored_ends (k := 0) body here) ?_
  intro sink' there
  refine .ok ⟨⟨⟨Nat.succ_pos 7, Nat.succ_pos 0, ?_⟩, ?_, rfl⟩, there, rfl, rfl⟩
  · simp only [in_len]
    omega
  · have back : s.reader.input.drop (s.reader.in_pos + 4 + data.length) = tail := by
      rw [← List.drop_drop, body, List.drop_left]
    rw [pending, back]
    rfl

/-! ## Decoder positions -/

/-- The decoder stands before `rest` and has written `out`. -/
structure InflateCtx.At (s : InflateCtx) (input : List UInt8) (buffer : Nat → UInt8)
    (out_len : Nat) (rest : Bits) (out : List UInt8) : Prop where
  reader : s.reader.At input rest
  sink : s.sink.At buffer out_len out
  sized : s.Sized

/-- A stored block that is there is copied if it fits. -/
theorem inflateStored_of_body {s : InflateCtx} {bits : Bits} {out' : List UInt8}
    (body : Body 0 bits out rest out') (here : s.At input buffer out_len bits out)
    (fits : out'.length ≤ out_len) :
    ∃ s', inflateStored s = .ok s' ∧ s'.At input buffer out_len rest out' := by
  cases body with
  | @stored skipped rest out data short aligned skippedShort =>
      obtain ⟨low, high, size⟩ := exists_bytes short
      have complement : 2 ^ 16 - 1 - data.length < 2 ^ 16 := by omega
      obtain ⟨low', high', check⟩ := exists_bytes complement
      have ready := here.reader.ready
      have front := here.reader.pending_eq
      have same : skipped.length = s.reader.bitcnt := by
        have total := congrArg List.length front
        have few := ready.few
        simp only [length_pending, List.length_append, length_lsbBits, length_bytesBits] at total
        omega
      rw [pending, check, lsbBits_sixteen, size, lsbBits_sixteen] at front
      obtain ⟨-, bytes⟩ := List.append_inj front (by rw [length_lsbBits, same])
      rw [← List.append_assoc, ← bytesBits_append, ← List.append_assoc, ← bytesBits_append] at bytes
      obtain ⟨tail, source, rfl⟩ := bytesBits_eq_append bytes
      rw [List.length_append] at fits
      have source' : s.reader.input.drop s.reader.in_pos =
          [low, high, low', high'] ++ (data ++ tail) := by
        rw [source]
        simp
      have never : Ends (fun _ => False) _ (inflateStored s) :=
        (inflateStored_ends source' size.symm check.symm here.sink).imp
          (fun stop stops => by omega) fun _ holds => holds
      obtain ⟨s', run, reader, sink, lencode, distcode⟩ := never.exists_ok
      rw [here.reader.input_eq] at reader
      refine ⟨s', run, reader, sink, ?_, ?_⟩
      · rw [lencode]
        exact here.sized.literal
      · rw [distcode]
        exact here.sized.distance

theorem exists_four {bytes : List UInt8} (enough : 4 ≤ bytes.length) :
    ∃ low high low' high' tail, bytes = [low, high, low', high'] ++ tail := by
  match bytes, enough with
  | low :: high :: low' :: high' :: tail, _ => exact ⟨low, high, low', high', tail, rfl⟩

/-- What is copied is a stored block. -/
theorem inflateStored_body {s : InflateCtx} (here : s.At input buffer out_len all out) :
    Ends Failure (fun s' => ∃ rest out', Body 0 all out rest out' ∧
      s'.At input buffer out_len rest out') (inflateStored s) := by
  have ready := here.reader.ready
  have front := here.reader.pending_eq
  by_cases headed : s.reader.input.length < s.reader.in_pos + 4
  · rw [inflateStored, if_pos (by exact headed)]
    exact .error (.inr (.inr rfl))
  obtain ⟨low, high, low', high', body, source⟩ := exists_four
    (show 4 ≤ (s.reader.input.drop s.reader.in_pos).length by rw [List.length_drop]; omega)
  have total := congrArg List.length source
  have four : ([low, high, low', high'] : List UInt8).length = 4 := rfl
  rw [List.length_drop, List.length_append] at total
  generalize lenEq : low.toNat + high.toNat * 2 ^ 8 = len
  by_cases mismatch : 2 ^ 16 - 1 - len ≠ low'.toNat + high'.toNat * 2 ^ 8
  · rw [inflateStored_eq source]
    simp only [lenEq, if_pos mismatch]
    exact .error (.inl rfl)
  by_cases ended : s.reader.input.length < s.reader.in_pos + 4 + len
  · rw [inflateStored_eq source]
    simp only [lenEq, if_neg mismatch, if_pos ended]
    exact .error (.inr (.inr rfl))
  have small : low.toNat < 256 := low.toNat_lt
  have small' : high.toNat < 256 := high.toNat_lt
  have check := (Decidable.not_not.mp mismatch).symm
  have bytes := List.take_append_drop len body
  have size : (body.take len).length = len := by
    rw [List.length_take]
    omega
  generalize body.take len = data at bytes size
  generalize body.drop len = tail at bytes
  subst size
  rw [← bytes] at source
  have isStored : Body 0 all out (bytesBits tail) (out ++ data) := by
    rw [← front, pending, source, bytesBits_append, bytesBits_append,
      show [low, high, low', high'] = [low, high] ++ [low', high'] from rfl, bytesBits_append,
      ← lsbBits_sixteen, ← lsbBits_sixteen, lenEq, check, List.append_assoc]
    refine .stored (by omega) ?_ ?_
    · rw [length_bytesBits, Nat.mul_mod_right]
    · rw [length_lsbBits]
      exact ready.few
  refine (inflateStored_ends source lenEq check here.sink).imp (fun stop stops => ?_) ?_
  · exact .inr (.inl stops.1)
  · rintro s' ⟨reader, sink, lencode, distcode⟩
    rw [here.reader.input_eq] at reader
    refine ⟨_, _, isStored, reader, sink, ?_, ?_⟩
    · rw [lencode]
      exact here.sized.literal
    · rw [distcode]
      exact here.sized.distance

/-! ## Symbols -/

/-- The tables of the source are those of the format. -/
theorem length_tables : ∀ index < 29, lenExtra[index]? = some (lengthExtra index) ∧
    lenBase[index]? = some (lengthBase index) ∧ lengthExtra index ≤ 16 := by decide

theorem distance_tables : ∀ sym < 30, distExtra[sym]? = some (distanceExtra sym) ∧
    distBase[sym]? = some (distanceBase sym) ∧ distanceExtra sym ≤ 16 ∧
    0 < distanceBase sym := by decide

theorem Symbols.length_le {literals distances : List Nat} {bits : Bits} {out' : List UInt8}
    (symbols : Symbols literals distances bits out rest out') : out.length ≤ out'.length := by
  induction symbols with
  | endOfBlock => exact Nat.le_refl _
  | literal _ _ ih =>
      rw [List.length_append, List.length_singleton] at ih
      omega
  | copy _ _ _ _ _ _ _ _ ih =>
      rw [length_copyBack] at ih
      omega

theorem Symbols.bits_length_le {literals distances : List Nat} {bits : Bits} {out' : List UInt8}
    (symbols : Symbols literals distances bits out rest out') : rest.length ≤ bits.length := by
  induction symbols with
  | endOfBlock => simp
  | literal _ _ ih =>
      rw [List.length_append]
      omega
  | copy _ _ _ _ _ _ _ _ ih =>
      simp only [List.length_append]
      omega

/-- Every block ends with a coded end-of-block symbol. -/
theorem Symbols.ended {literals distances : List Nat} {bits : Bits} {out' : List UInt8}
    (symbols : Symbols literals distances bits out rest out') :
    ∃ word, Codeword literals 256 word := by
  induction symbols with
  | endOfBlock codeword => exact ⟨_, codeword⟩
  | literal _ _ ih => exact ih
  | copy _ _ _ _ _ _ _ _ ih => exact ih

theorem Codeword.length_pos {lengths : List Nat} {sym : Nat} {word : Bits}
    (codeword : Codeword lengths sym word) : 0 < word.length := by
  obtain ⟨len, positive, -, rfl⟩ := codeword
  rwa [length_msbBits]

/-- A match that is there is copied if it fits. -/
theorem inflateMatch_of_copy {s : InflateCtx} {literals distances : List Nat}
    {extra word' extra' bits : Bits} {index sym : Nat} (tables : s.Tables literals distances)
    (isLength : index < 29) (extraLength : extra.length = lengthExtra index) (isDistance : sym < 30)
    (codeword' : Codeword distances sym word') (extraLength' : extra'.length = distanceExtra sym)
    (within : distanceBase sym + lsbValue extra' ≤ out.length)
    (here : s.At input buffer out_len (extra ++ (word' ++ (extra' ++ bits))) out)
    (fits : out.length + (lengthBase index + lsbValue extra) ≤ out_len) :
    ∃ s', inflateMatch (257 + index) s = .ok s' ∧ s'.Tables literals distances ∧
      s'.At input buffer out_len bits
        (copyBack out (distanceBase sym + lsbValue extra') (lengthBase index + lsbValue extra)) := by
  obtain ⟨needLength, baseLength, smallLength⟩ := length_tables index isLength
  obtain ⟨needDistance, baseDistance, smallDistance, positive⟩ := distance_tables sym isDistance
  obtain ⟨r1, run1, here1⟩ := here.reader.bits extraLength smallLength
  obtain ⟨r2, run2, here2⟩ := here1.decode tables.distance codeword'
  obtain ⟨r3, run3, here3⟩ := here2.bits extraLength' smallDistance
  have never : Ends (fun _ => False) _ (emitMatch (distanceBase sym + lsbValue extra')
      (lengthBase index + lsbValue extra) s.sink) :=
    (here.sink.emitMatch _ (by omega) within).imp (fun stop stops => by omega) fun _ holds => holds
  obtain ⟨sink, run4, there⟩ := never.exists_ok
  refine ⟨{ s with reader := r3, sink := sink }, ?_, ⟨tables.literal, tables.distance⟩,
    here3, there, here.sized.literal, here.sized.distance⟩
  have index' : 257 + index - 257 = index := by omega
  rw [inflateMatch]
  simp only [index']
  rw [if_neg (by omega), readAt_of_getElem? needLength, ok_bind, run1, ok_bind]
  dsimp only
  rw [readAt_of_getElem? baseLength, ok_bind, run2, ok_bind]
  dsimp only
  rw [if_neg (by omega), readAt_of_getElem? needDistance, ok_bind, run3, ok_bind]
  dsimp only
  rw [readAt_of_getElem? baseDistance, ok_bind, run4]
  rfl

/-- What is copied is a match. -/
theorem inflateMatch_ends {s : InflateCtx} {literals distances : List Nat} {length : Nat}
    (tables : s.Tables literals distances) (isLength : 257 ≤ length)
    (here : s.At input buffer out_len all out) :
    Ends Failure (fun s' => s'.Tables literals distances ∧ ∃ index extra sym word' extra' rest,
      length = 257 + index ∧ index < 29 ∧ extra.length = lengthExtra index ∧ sym < 30 ∧
      Codeword distances sym word' ∧ extra'.length = distanceExtra sym ∧
      distanceBase sym + lsbValue extra' ≤ out.length ∧
      all = extra ++ (word' ++ (extra' ++ rest)) ∧
      s'.At input buffer out_len rest (copyBack out (distanceBase sym + lsbValue extra')
        (lengthBase index + lsbValue extra)))
      (inflateMatch length s) := by
  rw [inflateMatch]
  dsimp only
  split_ifs with unknown
  · exact .error (.inl rfl)
  have inside : length - 257 < 29 := by omega
  obtain ⟨needLength, baseLength, smallLength⟩ := length_tables _ inside
  rw [readAt_of_getElem? needLength, ok_bind]
  refine Ends.bind (here.reader.bits_ends smallLength) ?_
  rintro ⟨value, r1⟩ ⟨extra, rest1, size, rfl, isValue, here1⟩
  dsimp only at isValue here1 ⊢
  subst isValue
  rw [readAt_of_getElem? baseLength, ok_bind]
  refine Ends.bind (here1.decode_ends tables.distance) ?_
  rintro ⟨sym, r2⟩ ⟨word', rest2, codeword', rfl, here2⟩
  dsimp only at codeword' here2 ⊢
  split_ifs with unknown'
  · exact .error (.inl rfl)
  have isDistance : sym < 30 := by omega
  obtain ⟨needDistance, baseDistance, smallDistance, positive⟩ := distance_tables sym isDistance
  rw [readAt_of_getElem? needDistance, ok_bind]
  refine Ends.bind (here2.bits_ends smallDistance) ?_
  rintro ⟨value, r3⟩ ⟨extra', rest3, size', rfl, isValue, here3⟩
  dsimp only at isValue here3 ⊢
  subst isValue
  rw [readAt_of_getElem? baseDistance, ok_bind]
  by_cases far : out.length < distanceBase sym + lsbValue extra'
  · rw [here.sink.emitMatch_far _ far, error_bind]
    exact .error (.inl rfl)
  refine Ends.bind ((here.sink.emitMatch _ (by omega) (Nat.not_lt.mp far)).imp
    (fun stop stops => .inr (.inl stops.1)) fun _ holds => holds) ?_
  intro sink there
  exact .ok ⟨⟨tables.literal, tables.distance⟩, length - 257, extra, sym, word', extra', rest3,
    by omega, inside, size, isDistance, codeword', size', Nat.not_lt.mp far, rfl,
    here3, there, here.sized.literal, here.sized.distance⟩

/-- The symbol loop expands the symbols that are there. -/
theorem inflateSymbols_of_symbols {s : InflateCtx} {literals distances : List Nat} {bits : Bits}
    {out' : List UInt8} {fuel : Nat} (symbols : Symbols literals distances bits out rest out')
    (tables : s.Tables literals distances) (here : s.At input buffer out_len bits out)
    (enough : bits.length < fuel) (fits : out'.length ≤ out_len) :
    ∃ s', inflateSymbols fuel s = .ok s' ∧ s'.At input buffer out_len rest out' := by
  induction symbols generalizing fuel s with
  | @endOfBlock word rest out codeword =>
      obtain ⟨fuel, rfl⟩ : ∃ less, fuel = less + 1 := ⟨fuel - 1, by omega⟩
      obtain ⟨reader, run, there⟩ := here.reader.decode tables.literal codeword
      refine ⟨{ s with reader := reader }, ?_, there, here.sink, here.sized.literal,
        here.sized.distance⟩
      rw [inflateSymbols, run]
      rfl
  | @literal word bits rest out out' byte codeword next ih =>
      obtain ⟨fuel, rfl⟩ : ∃ less, fuel = less + 1 := ⟨fuel - 1, by omega⟩
      obtain ⟨reader, run, there⟩ := here.reader.decode tables.literal codeword
      have grown := Symbols.length_le next
      have shrunk := Codeword.length_pos codeword
      rw [List.length_append, List.length_singleton] at grown
      rw [List.length_append] at enough
      have never : Ends (fun _ => False) _ (emit byte s.sink) :=
        (here.sink.emit byte).imp (fun stop stops => by omega) fun _ holds => holds
      obtain ⟨sink, run', there'⟩ := never.exists_ok
      have enough' : bits.length < fuel := by omega
      obtain ⟨s', run'', done⟩ := ih (s := { s with reader := reader, sink := sink })
        ⟨tables.literal, tables.distance⟩
        ⟨there, there', here.sized.literal, here.sized.distance⟩ enough' fits
      refine ⟨s', ?_, done⟩
      rw [inflateSymbols, run, ok_bind]
      dsimp only
      rw [if_pos byte.toNat_lt, UInt8.ofNat_toNat, run', ok_bind, run'']
  | @copy word extra word' extra' bits rest out out' index sym isLength codeword extraLength
      isDistance codeword' extraLength' within next ih =>
      obtain ⟨fuel, rfl⟩ : ∃ less, fuel = less + 1 := ⟨fuel - 1, by omega⟩
      obtain ⟨reader, run, there⟩ := here.reader.decode tables.literal codeword
      have grown := Symbols.length_le next
      have shrunk := Codeword.length_pos codeword
      rw [length_copyBack] at grown
      simp only [List.length_append] at enough
      obtain ⟨s', run', tables', there'⟩ := inflateMatch_of_copy
        (s := { s with reader := reader }) ⟨tables.literal, tables.distance⟩ isLength extraLength
        isDistance codeword' extraLength' within
        ⟨there, here.sink, here.sized.literal, here.sized.distance⟩ (by omega)
      have enough' : bits.length < fuel := by omega
      obtain ⟨s'', run'', done⟩ := ih tables' there' enough' fits
      refine ⟨s'', ?_, done⟩
      rw [inflateSymbols, run, ok_bind]
      dsimp only
      rw [if_neg (by omega), if_neg (by omega), run', ok_bind, run'']

/-- What the symbol loop expands are symbols. -/
theorem inflateSymbols_ends {s : InflateCtx} {literals distances : List Nat} {fuel : Nat}
    (tables : s.Tables literals distances) (here : s.At input buffer out_len all out)
    (enough : all.length < fuel) :
    Ends Failure (fun s' => ∃ rest out', Symbols literals distances all out rest out' ∧
      s'.At input buffer out_len rest out') (inflateSymbols fuel s) := by
  induction fuel generalizing s all out with
  | zero => omega
  | succ fuel ih =>
      rw [inflateSymbols]
      refine Ends.bind (here.reader.decode_ends tables.literal) ?_
      rintro ⟨sym, reader⟩ ⟨word, rest, codeword, rfl, there⟩
      dsimp only at codeword there ⊢
      have shrunk := Codeword.length_pos codeword
      rw [List.length_append] at enough
      split_ifs with isLiteral isEnd
      · refine Ends.bind ((here.sink.emit (UInt8.ofNat sym)).imp
          (fun stop stops => .inr (.inl stops.1)) fun _ holds => holds) ?_
        intro sink there'
        have value : (UInt8.ofNat sym).toNat = sym := UInt8.toNat_ofNat_of_lt' isLiteral
        refine (ih (s := { s with reader := reader, sink := sink })
          ⟨tables.literal, tables.distance⟩
          ⟨there, there', here.sized.literal, here.sized.distance⟩ (by omega)).mono ?_
        rintro s' ⟨rest', out', symbols, done⟩
        exact ⟨rest', out', .literal (by rw [value]; exact codeword) symbols, done⟩
      · subst isEnd
        exact .ok ⟨rest, out, .endOfBlock codeword, there, here.sink, here.sized.literal,
          here.sized.distance⟩
      · refine Ends.bind (inflateMatch_ends (s := { s with reader := reader })
          ⟨tables.literal, tables.distance⟩ (by omega : 257 ≤ sym)
          ⟨there, here.sink, here.sized.literal, here.sized.distance⟩) ?_
        rintro s' ⟨tables', index, extra, dsym, word', extra', rest', rfl, isLength, size,
          isDistance, codeword', size', within, rfl, there'⟩
        simp only [List.length_append] at enough
        refine (ih tables' there' (by omega)).mono ?_
        rintro s'' ⟨rest'', out', symbols, done⟩
        exact ⟨rest'', out', .copy isLength codeword size isDistance codeword' size' within symbols,
          done⟩

/-! ## Blocks -/

/-- Only the first 30 distance symbols occur. -/
theorem Symbols.mono_distances {literals distances distances' : List Nat} {bits : Bits}
    {out' : List UInt8} (symbols : Symbols literals distances bits out rest out')
    (same : ∀ sym < 30, ∀ word, Codeword distances sym word → Codeword distances' sym word) :
    Symbols literals distances' bits out rest out' := by
  induction symbols with
  | endOfBlock codeword => exact .endOfBlock codeword
  | literal codeword _ ih => exact .literal codeword ih
  | copy isLength codeword size isDistance codeword' size' within _ ih =>
      exact .copy isLength codeword size isDistance (same _ isDistance _ codeword') size' within ih

/-- The source builds 30 of the 32 fixed distance codes. -/
theorem symbols_fixed_iff {bits : Bits} {out' : List UInt8} :
    Symbols fixedLiterals fixedDistances bits out rest out' ↔
      Symbols fixedLiterals (List.replicate 30 5) bits out rest out' := by
  constructor
  · intro symbols
    refine Symbols.mono_distances symbols fun sym inside word codeword => ?_
    rw [fixedDistances, codeword_replicate] at codeword
    exact codeword_replicate.mpr ⟨inside, codeword.2⟩
  · intro symbols
    refine Symbols.mono_distances symbols fun sym inside word codeword => ?_
    rw [codeword_replicate] at codeword
    exact codeword_replicate.mpr ⟨by omega, codeword.2⟩

theorem CodeLengths.bits_length_le {code known lengths : List Nat} {total : Nat} {bits : Bits}
    (runs : CodeLengths code total bits known rest lengths) : rest.length ≤ bits.length := by
  induction runs with
  | complete => exact Nat.le_refl _
  | single _ _ _ _ ih =>
      rw [List.length_append]
      omega
  | copyPrevious _ _ _ _ _ ih =>
      simp only [List.length_append]
      omega
  | zeros _ _ _ _ ih =>
      simp only [List.length_append]
      omega

theorem DynamicCodes.bits_length_le {literals distances : List Nat} {bits : Bits}
    (codes : DynamicCodes bits rest literals distances) : rest.length ≤ bits.length := by
  cases codes with
  | intro _ _ _ _ _ _ runs _ _ =>
      have shrunk := CodeLengths.bits_length_le runs
      simp only [List.length_append]
      omega

theorem Body.bits_length_le {type : Nat} {bits : Bits} {out' : List UInt8}
    (body : Body type bits out rest out') : rest.length ≤ bits.length := by
  cases body with
  | stored =>
      simp only [List.length_append]
      omega
  | fixed symbols => exact Symbols.bits_length_le symbols
  | dynamic codes symbols =>
      exact Nat.le_trans (Symbols.bits_length_le symbols) (DynamicCodes.bits_length_le codes)

theorem Body.length_le {type : Nat} {bits : Bits} {out' : List UInt8}
    (body : Body type bits out rest out') : out.length ≤ out'.length := by
  cases body with
  | stored => simp
  | fixed symbols => exact Symbols.length_le symbols
  | dynamic codes symbols => exact Symbols.length_le symbols

theorem Blocks.length_le {bits : Bits} {out' : List UInt8}
    (blocks : Blocks bits out rest out') : out.length ≤ out'.length := by
  induction blocks with
  | final body => exact Body.length_le body
  | more body _ ih => exact Nat.le_trans (Body.length_le body) ih

/-- A block that is there is expanded if it fits. -/
theorem inflateBlock_of_body {s : InflateCtx} {type : Nat} {bits : Bits} {out' : List UInt8}
    (body : Body type bits out rest out') (here : s.At input buffer out_len bits out)
    (bound : bits.length ≤ 8 * input.length) (fits : out'.length ≤ out_len) :
    ∃ s', inflateBlock type s = .ok s' ∧ s'.At input buffer out_len rest out' := by
  cases body with
  | stored short aligned skippedShort =>
      exact inflateStored_of_body (.stored short aligned skippedShort) here fits
  | fixed symbols =>
      obtain ⟨s', run, reader, sink, tables⟩ := buildFixed_spec here.sized
      have there : s'.At input buffer out_len bits out :=
        ⟨reader ▸ here.reader, sink ▸ here.sink, tables.literal.symbols_length,
          tables.distance.symbols_length⟩
      have enough : bits.length < loopFuel s'.reader := by
        rw [loopFuel, in_len, there.reader.input_eq]
        omega
      obtain ⟨s'', run', done⟩ :=
        inflateSymbols_of_symbols (symbols_fixed_iff.mp symbols) tables there enough fits
      refine ⟨s'', ?_, done⟩
      rw [inflateBlock, if_neg (by decide), if_pos rfl, run, ok_bind, run']
  | @dynamic _ middle _ _ _ literals distances codes symbols =>
      obtain ⟨word, ended⟩ := Symbols.ended symbols
      obtain ⟨s', run, reader, sink, tables⟩ :=
        buildDynamic_of_codes codes ended here.sized here.reader
      have there : s'.At input buffer out_len middle out :=
        ⟨reader, sink ▸ here.sink, tables.literal.symbols_length, tables.distance.symbols_length⟩
      have shrunk := DynamicCodes.bits_length_le codes
      have enough : middle.length < loopFuel s'.reader := by
        rw [loopFuel, in_len, there.reader.input_eq]
        omega
      obtain ⟨s'', run', done⟩ := inflateSymbols_of_symbols symbols tables there enough fits
      refine ⟨s'', ?_, done⟩
      rw [inflateBlock, if_neg (by decide), if_neg (by decide), if_pos rfl, run, ok_bind, run']

/-- What is expanded is a block. -/
theorem inflateBlock_ends {s : InflateCtx} (type : Nat) (here : s.At input buffer out_len all out)
    (bound : all.length ≤ 8 * input.length) :
    Ends Failure (fun s' => ∃ rest out', Body type all out rest out' ∧
      s'.At input buffer out_len rest out') (inflateBlock type s) := by
  rw [inflateBlock]
  split_ifs with isStored isFixed isDynamic
  · subst isStored
    exact inflateStored_body here
  · subst isFixed
    obtain ⟨s', run, reader, sink, tables⟩ := buildFixed_spec here.sized
    have there : s'.At input buffer out_len all out :=
      ⟨reader ▸ here.reader, sink ▸ here.sink, tables.literal.symbols_length,
        tables.distance.symbols_length⟩
    have enough : all.length < loopFuel s'.reader := by
      rw [loopFuel, in_len, there.reader.input_eq]
      omega
    rw [run, ok_bind]
    refine (inflateSymbols_ends tables there enough).mono ?_
    rintro s'' ⟨rest, out', symbols, done⟩
    exact ⟨rest, out', .fixed (symbols_fixed_iff.mpr symbols), done⟩
  · subst isDynamic
    refine Ends.bind (buildDynamic_ends here.sized here.reader) ?_
    rintro s' ⟨middle, literals, distances, codes, reader, sink, tables⟩
    have there : s'.At input buffer out_len middle out :=
      ⟨reader, sink ▸ here.sink, tables.literal.symbols_length, tables.distance.symbols_length⟩
    have shrunk := DynamicCodes.bits_length_le codes
    have enough : middle.length < loopFuel s'.reader := by
      rw [loopFuel, in_len, there.reader.input_eq]
      omega
    refine (inflateSymbols_ends tables there enough).mono ?_
    rintro s'' ⟨rest, out', symbols, done⟩
    exact ⟨rest, out', .dynamic codes symbols, done⟩
  · exact .error (.inl rfl)

theorem Body.type_lt {type : Nat} {bits : Bits} {out' : List UInt8}
    (body : Body type bits out rest out') : type < 2 ^ 2 := by
  cases body <;> decide

/-- The header of a block: the final flag and the type. -/
theorem readHeader {s : BitReader} {final : Bool} {type : Nat} (small : type < 2 ^ 2)
    (here : s.At input (final :: (lsbBits 2 type ++ rest))) :
    ∃ s' s'', bits 1 s = .ok (final.toNat, s') ∧ bits 2 s' = .ok (type, s'') ∧
      s''.At input rest := by
  have front : s.At input ([final] ++ (lsbBits 2 type ++ rest)) := here
  obtain ⟨s', run, there⟩ := front.bits rfl (by decide : 1 ≤ 16)
  obtain ⟨s'', run', done⟩ := there.bits (length_lsbBits _ _) (by decide : 2 ≤ 16)
  refine ⟨s', s'', ?_, ?_, done⟩
  · simpa [lsbValue] using run
  · rwa [lsbValue_lsbBits, Nat.mod_eq_of_lt small] at run'

/-- The block loop expands the blocks that are there. -/
theorem inflateBlocks_of_blocks {s : InflateCtx} {bits : Bits} {out' : List UInt8} {fuel : Nat}
    (blocks : Blocks bits out rest out') (here : s.At input buffer out_len bits out)
    (bound : bits.length ≤ 8 * input.length) (enough : bits.length < fuel)
    (fits : out'.length ≤ out_len) :
    ∃ s', inflateBlocks fuel s = .ok s' ∧ s'.At input buffer out_len rest out' := by
  induction blocks generalizing fuel s with
  | @final type bits rest out out' body =>
      obtain ⟨fuel, rfl⟩ : ∃ less, fuel = less + 1 := ⟨fuel - 1, by omega⟩
      obtain ⟨r1, r2, run1, run2, there⟩ := readHeader (Body.type_lt body) here.reader
      simp only [List.length_cons, List.length_append] at bound enough
      obtain ⟨s', run, done⟩ := inflateBlock_of_body body (s := { s with reader := r2 })
        ⟨there, here.sink, here.sized.literal, here.sized.distance⟩ (by omega) fits
      refine ⟨s', ?_, done⟩
      rw [inflateBlocks, run1, ok_bind]
      dsimp only
      rw [run2, ok_bind]
      dsimp only
      rw [run, ok_bind]
      rfl
  | @more type bits middle rest out middleOut out' body next ih =>
      obtain ⟨fuel, rfl⟩ : ∃ less, fuel = less + 1 := ⟨fuel - 1, by omega⟩
      obtain ⟨r1, r2, run1, run2, there⟩ := readHeader (Body.type_lt body) here.reader
      simp only [List.length_cons, List.length_append] at bound enough
      have shrunk := Body.bits_length_le body
      obtain ⟨s', run, there'⟩ := inflateBlock_of_body body (s := { s with reader := r2 })
        ⟨there, here.sink, here.sized.literal, here.sized.distance⟩ (by omega)
        (Nat.le_trans (Blocks.length_le next) fits)
      have enough' : middle.length < fuel := by omega
      obtain ⟨s'', run', done⟩ := ih there' (by omega) enough' fits
      refine ⟨s'', ?_, done⟩
      rw [inflateBlocks, run1, ok_bind]
      dsimp only
      rw [run2, ok_bind]
      dsimp only
      rw [run, ok_bind, if_neg (by decide), run']

/-- What the block loop expands are blocks. -/
theorem inflateBlocks_ends {s : InflateCtx} {fuel : Nat}
    (here : s.At input buffer out_len all out) (bound : all.length ≤ 8 * input.length)
    (enough : all.length < fuel) :
    Ends Failure (fun s' => ∃ rest out', Blocks all out rest out' ∧
      s'.At input buffer out_len rest out') (inflateBlocks fuel s) := by
  induction fuel generalizing s all out with
  | zero => omega
  | succ fuel ih =>
      rw [inflateBlocks]
      refine Ends.bind (here.reader.bits_ends (by decide)) ?_
      rintro ⟨last, r1⟩ ⟨word1, rest1, size1, rfl, value1, here1⟩
      refine Ends.bind (here1.bits_ends (by decide)) ?_
      rintro ⟨type, r2⟩ ⟨word2, rest2, size2, rfl, value2, here2⟩
      dsimp only at value1 value2 here1 here2 ⊢
      obtain ⟨final, rfl⟩ := List.length_eq_one_iff.mp size1
      have header : lsbBits 2 type = word2 := by rw [value2, ← size2, lsbBits_lsbValue]
      rw [← header, List.singleton_append] at bound enough ⊢
      simp only [List.length_cons, List.length_append] at bound enough
      refine Ends.bind (inflateBlock_ends type (s := { s with reader := r2 })
        ⟨here2, here.sink, here.sized.literal, here.sized.distance⟩ (by omega)) ?_
      rintro s' ⟨middle, middleOut, body, there⟩
      have shrunk := Body.bits_length_le body
      cases final with
      | true =>
          rw [if_pos (by rw [value1]; decide)]
          exact .ok ⟨middle, middleOut, .final body, there⟩
      | false =>
          rw [if_neg (by rw [value1]; decide)]
          refine (ih there (by omega) (by omega)).mono ?_
          rintro s'' ⟨rest, out', blocks, done⟩
          exact ⟨rest, out', .more body blocks, done⟩

end Systrix.Inflate
