import Systrix.Inflate.OutputLimit

/-!
# Less input

A call on the front of its input follows the call on all of it up to the first
byte that is missing, and bytes that are not read have no effect.
-/

namespace Systrix.Inflate

open Machine Fallible Lockstep

/-- Bits of the same input, no less of it read. -/
structure BitReader.Grows (s s' : BitReader) : Prop where
  in_pos : s.in_pos ≤ s'.in_pos
  input : s'.input = s.input

instance : Preorder BitReader where
  le := BitReader.Grows
  le_refl _ := ⟨Nat.le_refl _, rfl⟩
  le_trans _ _ _ first second := ⟨Nat.le_trans first.in_pos second.in_pos, second.input.trans first.input⟩

/-- The reader on another input. -/
def BitReader.on (s : BitReader) (input : List UInt8) : BitReader := { s with input := input }

/-- The decoder on another input. -/
def InflateCtx.on (s : InflateCtx) (input : List UInt8) : InflateCtx := { s with reader := s.reader.on input }

/-- Reading `input`, no further than to the end of `input'`. -/
structure Covered (input input' : List UInt8) (s : BitReader) : Prop where
  input : s.input = input
  in_pos : s.in_pos ≤ input'.length

/-- The input of a reader ends where `input'` does. -/
def readerLimit (input input' : List UInt8) : Limit BitReader Stop where
  within := Covered input input'
  stops stop _ _ := stop = errInput
  spent _ := False
  within_of_le le covered := ⟨le.input.symm.trans covered.input, Nat.le_trans le.in_pos covered.in_pos⟩
  stops_of_le _ _ stops := stops

/-- The call stopped for want of input, with a front of the output. -/
structure Exhausted (halt : Halt) (start reached : BitReader × Sink) : Prop where
  stop : halt.stop = errInput
  after : start.2 ≤ halt.sink
  front : halt.sink ≤ reached.2

/-- The input of a decoder ends where `input'` does. -/
def inputLimit (input input' : List UInt8) : Limit (BitReader × Sink) Halt where
  within s := Covered input input' s.1
  stops := Exhausted
  spent halt := halt.stop = .unfinished
  within_of_le le covered := (readerLimit input input').within_of_le le.1 covered
  stops_of_le le le' exhausted :=
    ⟨exhausted.stop, le_trans le.2 exhausted.after, le_trans exhausted.front le'.2⟩

variable {input input' : List UInt8}

/-- One input is a front of the other. -/
def Fronts (input input' : List UInt8) : Prop := input' <+: input ∨ input <+: input'

theorem Fronts.getElem? (fronts : Fronts input input') {i : Nat} {b : UInt8} (found : input[i]? = some b)
    (inside : i < input'.length) : input'[i]? = some b := by
  obtain ⟨inside', rfl⟩ := List.getElem?_eq_some_iff.mp found
  rw [List.getElem?_eq_getElem inside]
  rcases fronts with front | front
  · exact congrArg some (front.getElem inside)
  · exact congrArg some (front.getElem inside').symm

/-! ## Reading -/

/-- `run'` has the other input. -/
abbrev Cut {α : Type} (input input' : List UInt8) (s : BitReader) (view : α → BitReader) (lower : α → α)
    (run run' : Except Stop α) : Prop :=
  Follows (readerLimit input input') s view lower run run'

/-- A value and the reader behind it. -/
abbrev CutPair {α : Type} (input input' : List UInt8) (s : BitReader) (run run' : Except Stop (α × BitReader)) :
    Prop :=
  Cut input input' s Prod.snd (fun result => (result.1, result.2.on input')) run run'

theorem CutPair.result {α : Type} (value : α) (s : BitReader) :
    CutPair input input' s (pure (value, s)) (pure (value, s.on input')) := Follows.ok (value, s) rfl

theorem readAt_cut (fronts : Fronts input input') {s : BitReader} {i : Nat} (covered : Covered input input' s)
    (inside : i < input'.length) {b : UInt8} (read : readAt s.input i = .ok b) : readAt input' i = .ok b := by
  rw [covered.input, readAt] at read
  split at read
  · next found =>
    cases read
    exact readAt_of_getElem? (fronts.getElem? found inside)
  · cases read

theorem fillBits_cut (fronts : Fronts input input') (need val : Nat) (s : BitReader) :
    CutPair input input' s (fillBits need val s) (fillBits need val (s.on input')) := by
  fun_induction fillBits need val s with
  | case1 val s low atEnd => exact .error
  | case2 val s low more ih =>
      have le : s ≤ { s with in_pos := s.in_pos + 1, bitcnt := s.bitcnt + 8 } := ⟨Nat.le_succ _, rfl⟩
      rw [fillBits, if_pos (show (s.on input').bitcnt < need from low)]
      split
      · next atEnd =>
        have atEnd : input'.length ≤ s.in_pos := atEnd
        have grows : ∀ result, (do
            let byte ← readAt s.input s.in_pos
            fillBits need (val ||| u32 (byte.toNat <<< s.bitcnt))
              { s with in_pos := s.in_pos + 1, bitcnt := s.bitcnt + 8 }) = .ok result →
            { s with in_pos := s.in_pos + 1, bitcnt := s.bitcnt + 8 } ≤ result.2 := by
          intro result found
          cases read : readAt s.input s.in_pos with
          | error stop =>
              rw [read] at found
              cases found
          | ok byte =>
              rw [read, ok_bind] at found
              exact (ih byte).grows result found
        refine .stop (fun result found => le.trans (grows result found)) fun _ result found => ⟨fun covered => ?_, rfl⟩
        have further := (grows result found).in_pos
        have inside := covered.in_pos
        dsimp only at further inside
        omega
      · next more' =>
        have more' : s.in_pos < input'.length := Nat.lt_of_not_le more'
        refine .bind_same (fun covered b read => readAt_cut fronts covered more' read) fun byte _ => ?_
        exact .advance le (fun covered => ⟨covered.input, more'⟩) (ih byte)
  | case3 val s enough =>
      rw [fillBits, if_neg (show ¬ (s.on input').bitcnt < need from enough)]
      exact CutPair.result val s

/-- The number of buffered bits is of no importance. -/
theorem Cut.same_place {α : Type} {s : BitReader} (s' : BitReader) {view : α → BitReader} {lower : α → α}
    {run run' : Except Stop α} (input_eq : s'.input = s.input) (in_pos : s'.in_pos = s.in_pos) (later : Cut input input' s' view lower run run') :
    Cut input input' s view lower run run' :=
  .advance ⟨Nat.le_of_eq in_pos.symm, input_eq⟩
    (fun covered => ⟨input_eq.trans covered.input, in_pos ▸ covered.in_pos⟩) later

theorem bits_cut (fronts : Fronts input input') (need : Nat) (s : BitReader) :
    CutPair input input' s (bits need s) (bits need (s.on input')) := by
  refine .bind (fillBits_cut fronts need s.bitbuf s) ?_
  rintro ⟨val, s'⟩ -
  refine Cut.same_place { s' with bitbuf := val >>> need, bitcnt := s'.bitcnt - need } rfl rfl ?_
  exact CutPair.result _ _

theorem decodeLoop_cut (fronts : Fronts input input') (h : Huff) (remaining len : Nat) (code first index : Int)
    (s : BitReader) : CutPair input input' s (decodeLoop h remaining len code first index s)
      (decodeLoop h remaining len code first index (s.on input')) := by
  induction remaining generalizing len code first index s with
  | zero => exact .error
  | succ remaining ih =>
      refine .bind (bits_cut fronts 1 s) ?_
      rintro ⟨b, s'⟩ -
      refine .bind_same (fun _ _ read => read) fun count _ => ?_
      dsimp only
      split
      · exact .bind_same (fun _ _ read => read) fun symbol _ => CutPair.result symbol s'
      · exact ih _ _ _ _ s'

theorem decode_cut (fronts : Fronts input input') (h : Huff) (s : BitReader) :
    CutPair input input' s (decode h s) (decode h (s.on input')) := decodeLoop_cut fronts h _ _ _ _ _ s

theorem readClens_cut (fronts : Fronts input input') (ncode : Nat) (s : BitReader) :
    CutPair input input' s (readClens ncode s) (readClens ncode (s.on input')) := by
  unfold readClens
  generalize List.replicate 19 0 = clens
  generalize List.range ncode = places
  induction places generalizing clens s with
  | nil => exact CutPair.result clens s
  | cons i places ih =>
      rw [List.foldlM_cons, List.foldlM_cons, bind_assoc, bind_assoc]
      refine .bind (bits_cut fronts 3 s) ?_
      rintro ⟨v, s'⟩ -
      simp only [bind_assoc, pure_bind]
      refine .bind_same (fun _ _ read => read) fun position _ => ?_
      exact .bind_same (fun _ _ write => write) fun clens' _ => ih s' clens'

theorem readRepeat_cut (fronts : Fronts input input') (sym i : Nat) (lengths : List Nat) (s : BitReader) :
    Cut input input' s (fun result => result.2.2) (fun result => (result.1, result.2.1, result.2.2.on input'))
      (readRepeat sym i lengths s) (readRepeat sym i lengths (s.on input')) := by
  rw [readRepeat, readRepeat]
  split
  · split
    · exact .error
    · refine .bind_same (fun _ _ read => read) fun val _ => ?_
      refine .bind (bits_cut fronts 2 s) ?_
      rintro ⟨rep, s'⟩ -
      exact .ok (val, rep + 3, s') rfl
  · split
    · refine .bind (bits_cut fronts 3 s) ?_
      rintro ⟨rep, s'⟩ -
      exact .ok (0, rep + 3, s') rfl
    · refine .bind (bits_cut fronts 7 s) ?_
      rintro ⟨rep, s'⟩ -
      exact .ok (0, rep + 11, s') rfl

theorem readLengths_cut (fronts : Fronts input input') (clcode : Huff) (total fuel i : Nat) (lengths : List Nat)
    (s : BitReader) : CutPair input input' s (readLengths clcode total fuel i lengths s)
      (readLengths clcode total fuel i lengths (s.on input')) := by
  induction fuel generalizing i lengths s with
  | zero => exact .error
  | succ fuel ih =>
      rw [readLengths, readLengths]
      split
      · refine .bind (decode_cut fronts clcode s) ?_
        rintro ⟨sym, s'⟩ -
        dsimp only
        split
        · exact .bind_same (fun _ _ write => write) fun lengths' _ => ih _ lengths' s'
        · refine .bind (readRepeat_cut fronts sym i lengths s') ?_
          rintro ⟨val, rep, s''⟩ -
          dsimp only
          split
          · exact .error
          · exact .bind_same (fun _ _ write => write) fun lengths' _ => ih _ lengths' s''
      · exact CutPair.result lengths s

theorem Cut.built (s : InflateCtx) : Cut input input' s.reader InflateCtx.reader (fun s' => s'.on input')
    (pure s) (pure (s.on input')) := Follows.ok s rfl

theorem buildFixed_cut (s : InflateCtx) : Cut input input' s.reader InflateCtx.reader (fun s' => s'.on input')
    (buildFixed s) (buildFixed (s.on input')) := by
  refine .bind_same (fun _ _ built => built) fun lencode _ => ?_
  exact .bind_same (fun _ _ built => built) fun distcode _ =>
    Cut.built { s with lencode := lencode, distcode := distcode }

theorem buildDynamic_cut (fronts : Fronts input input') (s : InflateCtx) :
    Cut input input' s.reader InflateCtx.reader (fun s' => s'.on input')
      (buildDynamic s) (buildDynamic (s.on input')) := by
  refine .bind (bits_cut fronts 5 s.reader) ?_
  rintro ⟨nlen, r1⟩ -
  refine .bind (bits_cut fronts 5 r1) ?_
  rintro ⟨ndist, r2⟩ -
  refine .bind (bits_cut fronts 4 r2) ?_
  rintro ⟨ncode, r3⟩ -
  dsimp only
  split
  · exact .error
  · refine .bind (readClens_cut fronts _ r3) ?_
    rintro ⟨clens, r4⟩ -
    refine .bind_same (fun _ _ built => built) fun clcode _ => ?_
    refine .bind (readLengths_cut fronts clcode _ _ _ _ r4) ?_
    rintro ⟨lengths, r5⟩ -
    refine .bind_same (fun _ _ read => read) fun endOfBlock _ => ?_
    dsimp only
    split
    · exact .error
    · refine .bind_same (fun _ _ built => built) fun lencode _ => ?_
      exact .bind_same (fun _ _ built => built) fun distcode _ => Cut.built ⟨r5, s.sink, lencode, distcode⟩

/-! ## Decoding -/

/-- `run'` has the other input. -/
abbrev CutCtx (input input' : List UInt8) (s : InflateCtx) (run run' : Except Halt InflateCtx) : Prop :=
  Follows (inputLimit input input') (s.reader, s.sink) (fun s' => (s'.reader, s'.sink)) (fun s' => s'.on input')
    run run'

/-- Reading in a decoder. -/
theorem Cut.stopAt {α : Type} {s : BitReader} {view : α → BitReader} {lower : α → α} {run run' : Except Stop α}
    (cut : Cut input input' s view lower run run') (sink : Sink) :
    Follows (inputLimit input input') (s, sink) (fun result => (view result, sink)) lower
      (stopAt sink run) (stopAt sink run') where
  grows result found := ⟨cut.grows result (stopAt_ok.mp found), le_refl _⟩
  outcome covered result found := by
    cases cut.outcome covered result (stopAt_ok.mp found) with
    | done within => exact .done within
    | stopped beyond stops => exact .stopped beyond ⟨stops, le_refl _, le_refl _⟩
    | spent never => exact never.elim

theorem CutCtx.result (s : InflateCtx) : CutCtx input input' s (pure s) (pure (s.on input')) := Follows.ok s rfl

theorem Blind.cut {build : InflateCtx → Except Stop InflateCtx} (blind : Blind build) {s : InflateCtx}
    (cut : Cut input input' s.reader InflateCtx.reader (fun s' => s'.on input') (build s) (build (s.on input'))) :
    CutCtx input input' s (stopAt s.sink (build s)) (stopAt s.sink (build (s.on input'))) :=
  .congr_view (fun s' built => by rw [blind.sink_eq (stopAt_ok.mp built)]) (cut.stopAt s.sink)

/-- The stored data is in the other input as well. -/
theorem copyStored_cut (fronts : Fronts input input') {reader : BitReader} {len k : Nat} {sink sink' : Sink}
    (same : reader.input = input) (inside : reader.in_pos + k + len ≤ input'.length)
    (copied : Halting.copyStored reader len k sink = .ok sink') :
    Halting.copyStored (reader.on input') len k sink = .ok sink' := by
  induction len generalizing k sink with
  | zero => exact copied
  | succ len ih =>
      rw [Halting.copyStored] at copied ⊢
      cases read : readAt reader.input (reader.in_pos + k) with
      | error stop =>
          rw [read] at copied
          cases copied
      | ok b =>
          have covered : Covered input input' reader := ⟨same, by omega⟩
          have read' := readAt_cut fronts covered (by omega : reader.in_pos + k < input'.length) read
          have place : readAt (reader.on input').input ((reader.on input').in_pos + k) = .ok b := read'
          rw [read] at copied
          rw [place]
          cases emitted : Halting.emit b sink with
          | error halt =>
              change (Halting.emit b sink >>= fun sink => _) = _ at copied
              rw [emitted] at copied
              cases copied
          | ok sink₁ =>
              change (Halting.emit b sink >>= fun sink => _) = _ at copied ⊢
              rw [emitted, ok_bind] at copied ⊢
              exact ih (by omega) copied

/-- The end of a stored block. -/
theorem storedRest_ok {reader : BitReader} {len : Nat} {s s' : InflateCtx}
    (found : (do
      let sink ← Halting.copyStored reader len 0 s.sink
      pure { s with reader := { reader with in_pos := reader.in_pos + len }, sink := sink }) = .ok s') :
    s'.reader = { reader with in_pos := reader.in_pos + len } ∧ s.sink ≤ s'.sink := by
  cases copied : Halting.copyStored reader len 0 s.sink with
  | error halt =>
      rw [copied] at found
      cases found
  | ok sink =>
      rw [copied] at found
      cases found
      exact ⟨rfl, copyStored_grows copied⟩

/-- A stored block with its four header bytes in the other input. -/
theorem inflateStored_cut_of_header (fronts : Fronts input input') (s : InflateCtx)
    (headed : s.reader.in_pos + 4 ≤ s.reader.input.length) (header : s.reader.in_pos + 4 ≤ input'.length) :
    Follows (inputLimit input input') ({ s.reader with in_pos := s.reader.in_pos + 4 }, s.sink)
      (fun s' => (s'.reader, s'.sink)) (fun s' => s'.on input')
      (Halting.inflateStored s) (Halting.inflateStored (s.on input')) := by
  rw [Halting.inflateStored, Halting.inflateStored]
  dsimp only
  split
  · next short => exact absurd headed (Nat.not_le_of_lt short)
  split
  · next short => exact absurd header (Nat.not_le_of_lt short)
  have byteAt : ∀ i < 4, Covered input input' { s.reader with in_pos := s.reader.in_pos + 4 } → ∀ b,
      stopAt s.sink (readAt s.reader.input (s.reader.in_pos + i)) = .ok b →
        stopAt s.sink (readAt input' (s.reader.in_pos + i)) = .ok b := by
    intro i small covered b read
    have covered' : Covered input input' s.reader := ⟨covered.input, by omega⟩
    exact stopAt_ok.mpr (readAt_cut fronts covered' (by omega) (stopAt_ok.mp read))
  refine .bind_same (byteAt 0 (by decide)) fun b0 _ => ?_
  refine .bind_same (byteAt 1 (by decide)) fun b1 _ => ?_
  refine .bind_same (byteAt 2 (by decide)) fun b2 _ => ?_
  refine .bind_same (byteAt 3 (by decide)) fun b3 _ => ?_
  split
  · exact .error
  · split
    · exact .error
    · generalize b0.toNat ||| b1.toNat <<< 8 = len
      split
      · next cut =>
        have cut : input'.length < s.reader.in_pos + 4 + len := cut
        refine .stop (fun s' found => ?_) fun _ s' found => ?_
        · obtain ⟨place, le⟩ := storedRest_ok found
          dsimp only at place
          rw [place]
          exact ⟨⟨Nat.le_add_right _ _, rfl⟩, le⟩
        · obtain ⟨place, le⟩ := storedRest_ok found
          dsimp only at place
          rw [place]
          exact ⟨fun covered => Nat.not_le_of_lt cut covered.in_pos, rfl, le_refl _, le⟩
      · next whole =>
        have whole : s.reader.in_pos + 4 + len ≤ input'.length := Nat.le_of_not_lt whole
        refine .bind_same (fun covered sink copied => ?_) fun sink copied => ?_
        · have same : (⟨s.reader.input, s.reader.in_pos + 4, 0, 0⟩ : BitReader).input = input := covered.input
          exact copyStored_cut fronts same whole copied
        · have le : (({ s.reader with in_pos := s.reader.in_pos + 4 }, s.sink) : BitReader × Sink) ≤
              (⟨s.reader.input, s.reader.in_pos + 4 + len, 0, 0⟩, sink) :=
            ⟨⟨Nat.le_add_right _ _, rfl⟩, copyStored_grows copied⟩
          exact .advance le (fun covered => ⟨covered.input, whole⟩)
            (CutCtx.result { s with reader := ⟨s.reader.input, s.reader.in_pos + 4 + len, 0, 0⟩, sink := sink })

theorem inflateStored_cut (fronts : Fronts input input') (s : InflateCtx) :
    CutCtx input input' s (Halting.inflateStored s) (Halting.inflateStored (s.on input')) := by
  have le : ((s.reader, s.sink) : BitReader × Sink) ≤ ({ s.reader with in_pos := s.reader.in_pos + 4 }, s.sink) :=
    ⟨⟨Nat.le_add_right _ _, rfl⟩, le_refl _⟩
  by_cases headed : s.reader.in_pos + 4 ≤ s.reader.input.length
  · by_cases header : s.reader.in_pos + 4 ≤ input'.length
    · exact .advance le (fun covered => ⟨covered.input, header⟩) (inflateStored_cut_of_header fronts s headed header)
    · have same : Fronts s.reader.input s.reader.input := .inl (List.prefix_refl _)
      have grows := (inflateStored_cut_of_header same s headed headed).grows
      have stops : Halting.inflateStored (s.on input') = .error ⟨errInput, s.sink⟩ := by
        rw [Halting.inflateStored]
        exact if_pos (Nat.lt_of_not_le header)
      rw [stops]
      refine .stop (fun s' found => le.trans (grows s' found)) fun _ s' found => ⟨fun covered => ?_, rfl, le_refl _, ?_⟩
      · exact header (Nat.le_trans (grows s' found).1.in_pos covered.in_pos)
      · exact (grows s' found).2
  · have stops : Halting.inflateStored s = .error ⟨errInput, s.sink⟩ := by
      rw [Halting.inflateStored]
      exact if_pos (Nat.lt_of_not_le headed)
    rw [stops]
    exact .error

theorem inflateMatch_cut (fronts : Fronts input input') (sym : Nat) (s : InflateCtx) :
    CutCtx input input' s (Halting.inflateMatch sym s) (Halting.inflateMatch sym (s.on input')) := by
  rw [Halting.inflateMatch, Halting.inflateMatch]
  dsimp only
  split
  · exact .error
  · refine .bind_same (fun _ _ read => read) fun need _ => ?_
    refine .bind ((bits_cut fronts need s.reader).stopAt s.sink) ?_
    rintro ⟨extra, r1⟩ -
    refine .bind_same (fun _ _ read => read) fun base _ => ?_
    refine .bind ((decode_cut fronts s.distcode r1).stopAt s.sink) ?_
    rintro ⟨dsym, r2⟩ -
    dsimp only
    split
    · exact .error
    · refine .bind_same (fun _ _ read => read) fun need' _ => ?_
      refine .bind ((bits_cut fronts need' r2).stopAt s.sink) ?_
      rintro ⟨extra', r3⟩ -
      refine .bind_same (fun _ _ read => read) fun base' read => ?_
      refine .bind_same (fun _ _ copied => copied) fun sink copied => ?_
      have positive := distBase_pos base' (readAt_mem (stopAt_ok.mp read))
      have le : ((r3, s.sink) : BitReader × Sink) ≤ (r3, sink) :=
        ⟨le_refl _, emitMatch_grows (Nat.add_pos_left positive _) copied⟩
      exact .advance le (fun covered => covered) (CutCtx.result { s with reader := r3, sink := sink })

/-- The rounds may be counted down from different numbers. -/
theorem inflateSymbols_cut (fronts : Fronts input input') (fuel fuel' : Nat) (s : InflateCtx) :
    CutCtx input input' s (Halting.inflateSymbols fuel s) (Halting.inflateSymbols fuel' (s.on input')) := by
  induction fuel generalizing fuel' s with
  | zero => exact .error
  | succ fuel ih =>
      have round : ∀ fuel', CutCtx input input' s (Halting.inflateSymbols (fuel + 1) s)
          (Halting.inflateSymbols (fuel' + 1) (s.on input')) := by
        intro fuel'
        rw [Halting.inflateSymbols, Halting.inflateSymbols]
        refine .bind ((decode_cut fronts s.lencode s.reader).stopAt s.sink) ?_
        rintro ⟨sym, reader⟩ -
        dsimp only
        split
        · refine .bind_same (fun _ _ emitted => emitted) fun sink emitted => ?_
          have le : ((reader, s.sink) : BitReader × Sink) ≤ (reader, sink) :=
            ⟨le_refl _, emit_grows (stopAt_ok.mp emitted)⟩
          exact .advance le (fun covered => covered) (ih fuel' { s with reader := reader, sink := sink })
        · split
          · exact CutCtx.result { s with reader := reader }
          · exact .bind (inflateMatch_cut fronts sym { s with reader := reader }) fun s' _ => ih fuel' s'
      cases fuel' with
      | zero => exact .spend (round 0).grows rfl
      | succ fuel' => exact round fuel'

theorem inflateBlock_cut (fronts : Fronts input input') (type : Nat) (s : InflateCtx) :
    CutCtx input input' s (Halting.inflateBlock type s) (Halting.inflateBlock type (s.on input')) := by
  rw [Halting.inflateBlock, Halting.inflateBlock]
  split
  · exact inflateStored_cut fronts s
  · split
    · exact .bind (buildFixed_blind.cut (buildFixed_cut s)) fun s' _ => inflateSymbols_cut fronts _ _ s'
    · split
      · exact .bind (buildDynamic_blind.cut (buildDynamic_cut fronts s)) fun s' _ => inflateSymbols_cut fronts _ _ s'
      · exact .error

/-- The block loop on another input. -/
theorem inflateBlocks_cut (fronts : Fronts input input') (fuel fuel' : Nat) (s : InflateCtx) :
    CutCtx input input' s (Halting.inflateBlocks fuel s) (Halting.inflateBlocks fuel' (s.on input')) := by
  induction fuel generalizing fuel' s with
  | zero => exact .error
  | succ fuel ih =>
      have round : ∀ fuel', CutCtx input input' s (Halting.inflateBlocks (fuel + 1) s)
          (Halting.inflateBlocks (fuel' + 1) (s.on input')) := by
        intro fuel'
        rw [Halting.inflateBlocks, Halting.inflateBlocks]
        refine .bind ((bits_cut fronts 1 s.reader).stopAt s.sink) ?_
        rintro ⟨last, r1⟩ -
        refine .bind ((bits_cut fronts 2 r1).stopAt s.sink) ?_
        rintro ⟨type, r2⟩ -
        refine .bind (inflateBlock_cut fronts type { s with reader := r2 }) fun s' _ => ?_
        dsimp only
        split
        · exact CutCtx.result s'
        · exact ih fuel' s'
      cases fuel' with
      | zero => exact .spend (round 0).grows rfl
      | succ fuel' => exact round fuel'

/-! ## The call -/

theorem inflateRaw_cut (fronts : Fronts input input') (buffer : Nat → UInt8) (out_len : Nat)
    (window : Option Window) :
    CutCtx input input' ⟨⟨input, 0, 0, 0⟩, ⟨buffer, out_len, 0, window⟩, .empty, .empty⟩
      (Halting.inflateRaw input buffer out_len window) (Halting.inflateRaw input' buffer out_len window) :=
  inflateBlocks_cut fronts _ _ _

/-- A call never runs out of rounds. -/
theorem inflateRaw_finishes {buffer : Nat → UInt8} {out_len : Nat} {halt : Halt}
    (run : Halting.inflateRaw input buffer out_len none = .error halt) : halt.stop ≠ .unfinished := by
  have ends := inflateRaw_ends input buffer out_len
  rw [← Halting.forget_inflateRaw, run] at ends
  have failure : Failure halt.stop := ends_error.mp ends
  intro unfinished
  rw [unfinished] at failure
  rcases failure with impossible | impossible | impossible <;> cases impossible

theorem inflateRawStream_ok {buffer : Nat → UInt8} {out_len : Nat} {count : Int} {s : InflateCtx} :
    Halting.inflateRawStream input buffer out_len = .ok (count, s) ↔
      Halting.inflateRaw input buffer out_len none = .ok s ∧ count = toInt32 s.sink.out_pos := by
  rw [Halting.inflateRawStream]
  cases Halting.inflateRaw input buffer out_len none with
  | error halt => exact ⟨fun impossible => (by cases impossible), fun both => (by cases both.1)⟩
  | ok s' =>
      constructor
      · intro found
        cases found
        exact ⟨rfl, rfl⟩
      · rintro ⟨same, rfl⟩
        cases same
        rfl

theorem Sink.produced_prefix_of_le {s s' : Sink} (le : s ≤ s') : s.produced <+: s'.produced := by
  obtain ⟨more, total⟩ := Nat.exists_eq_add_of_le le.out_pos
  have front : (List.range s.out_pos).map s.out = (List.range s.out_pos).map s'.out :=
    List.map_congr_left fun i member => (le.written i (List.mem_range.mp member)).symm
  rw [Sink.produced, Sink.produced, total, List.range_add, List.map_append, front]
  exact List.prefix_append _ _

section call

variable {buffer : Nat → UInt8} {out_len : Nat} {s : InflateCtx}

theorem inflateRaw_outcome (fronts : Fronts input input') (raw : Halting.inflateRaw input buffer out_len none = .ok s) :
    Outcome (inputLimit input input') (⟨input, 0, 0, 0⟩, ⟨buffer, out_len, 0, none⟩) (s.reader, s.sink) (s.on input')
      (Halting.inflateRaw input' buffer out_len none) :=
  (inflateRaw_cut fronts buffer out_len none).outcome ⟨rfl, Nat.zero_le _⟩ s raw

theorem inflateRaw_input (raw : Halting.inflateRaw input buffer out_len none = .ok s) :
    Covered input input s.reader := by
  have outcome := inflateRaw_outcome (.inl (List.prefix_refl input)) raw
  rw [raw] at outcome
  exact outcome.of_ok.1

/-- Bytes that are not read are of no importance. -/
theorem inflateRaw_on (fronts : Fronts input input') (raw : Halting.inflateRaw input buffer out_len none = .ok s)
    (enough : s.reader.in_pos ≤ input'.length) :
    Halting.inflateRaw input' buffer out_len none = .ok (s.on input') := by
  have outcome := inflateRaw_outcome fronts raw
  cases run : Halting.inflateRaw input' buffer out_len none with
  | ok s' =>
      rw [run] at outcome
      rw [outcome.of_ok.2]
  | error halt =>
      rw [run] at outcome
      cases outcome with
      | stopped beyond => exact absurd ⟨(inflateRaw_input raw).input, enough⟩ beyond
      | spent unfinished => exact absurd unfinished (inflateRaw_finishes run)

/-- A byte that is read is missing. -/
theorem inflateRaw_exhausted (fronts : Fronts input input') (raw : Halting.inflateRaw input buffer out_len none = .ok s)
    (short : input'.length < s.reader.in_pos) : ∃ halt,
    Halting.inflateRaw input' buffer out_len none = .error halt ∧
      Exhausted halt (⟨input, 0, 0, 0⟩, ⟨buffer, out_len, 0, none⟩) (s.reader, s.sink) := by
  have outcome := inflateRaw_outcome fronts raw
  cases run : Halting.inflateRaw input' buffer out_len none with
  | ok s' =>
      rw [run] at outcome
      exact absurd outcome.of_ok.1.in_pos (Nat.not_le_of_lt short)
  | error halt =>
      rw [run] at outcome
      cases outcome with
      | stopped beyond exhausted => exact ⟨halt, rfl, exhausted⟩
      | spent unfinished => exact absurd unfinished (inflateRaw_finishes run)

end call

/-- When a call delivers `s` after reading `s.reader.in_pos` bytes, a call on fewer of
them stops for want of input, with a front of the output; and whatever follows these
bytes, a call delivers the same. -/
theorem inflateRawStream_input (input : List UInt8) (buffer : Nat → UInt8) (out_len : Nat) (count : Int)
    (s : InflateCtx) (decoded : Halting.inflateRawStream input buffer out_len = .ok (count, s)) :
    s.reader.in_pos ≤ input.length ∧
    (∀ k < s.reader.in_pos, ∃ sink,
      Halting.inflateRawStream (input.take k) buffer out_len = .error ⟨errInput, sink⟩ ∧
        sink.produced <+: s.sink.produced ∧ ∀ i, sink.out_pos ≤ i → sink.out i = buffer i) ∧
    ∀ input' : List UInt8, s.reader.in_pos ≤ input'.length →
      input'.take s.reader.in_pos = input.take s.reader.in_pos →
      Halting.inflateRawStream input' buffer out_len = .ok (count, s.on input') := by
  obtain ⟨raw, counted⟩ := inflateRawStream_ok.mp decoded
  have whole : s.reader.in_pos ≤ input.length := (inflateRaw_input raw).in_pos
  refine ⟨whole, fun k short => ?_, fun input' enough same => ?_⟩
  · have fewer : (input.take k).length < s.reader.in_pos :=
      Nat.lt_of_le_of_lt (List.length_take_le k input) short
    obtain ⟨halt, run, exhausted⟩ := inflateRaw_exhausted (.inl (List.take_prefix k input)) raw fewer
    refine ⟨halt.sink, ?_, Sink.produced_prefix_of_le exhausted.front, fun i beyond => ?_⟩
    · rw [Halting.inflateRawStream, run, error_bind, ← exhausted.stop]
    · exact exhausted.after.behind i beyond
  · have length : (input.take s.reader.in_pos).length = s.reader.in_pos := List.length_take_of_le whole
    have front := inflateRaw_on (.inl (List.take_prefix s.reader.in_pos input)) raw (Nat.le_of_eq length.symm)
    have prefixed : input.take s.reader.in_pos <+: input' := same ▸ List.take_prefix s.reader.in_pos input'
    have longer := inflateRaw_on (.inr prefixed) front enough
    exact inflateRawStream_ok.mpr ⟨longer, counted⟩

theorem inflateRawStream_input_repeatedLetter : ∃ s, s.sink.out_pos = 8 ∧
    Halting.inflateRawStream (repeatedLetter ++ [1, 2, 3]) (fun _ => 0) 8 = .ok (8, s) ∧
    ∀ k < s.reader.in_pos, ∃ sink,
      Halting.inflateRawStream (repeatedLetter.take k) (fun _ => 0) 8 = .error ⟨errInput, sink⟩ := by
  obtain ⟨s, decoded, whole⟩ := repeatedLetter_decoded
  obtain ⟨inside, shorter, longer⟩ := inflateRawStream_input repeatedLetter (fun _ => 0) 8 8 s decoded
  refine ⟨s.on (repeatedLetter ++ [1, 2, 3]), whole, longer _ ?_ (List.take_append_of_le_length inside), ?_⟩
  · exact Nat.le_trans inside (by decide)
  · intro k short
    obtain ⟨sink, run, -⟩ := shorter k short
    exact ⟨sink, run⟩

end Systrix.Inflate
