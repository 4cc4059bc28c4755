import Systrix.Lib.Lockstep
import Systrix.Inflate.Halting
import Systrix.Inflate.Stream

/-!
# Less room for the output

A call with a smaller output buffer follows the call that had enough room up to
the first byte that does not fit.
-/

namespace Systrix.Inflate

open Machine Fallible Lockstep

/-! ## Growth of the output -/

/-- `s'` has what `s` has written and more behind it. -/
structure Sink.Grows (s s' : Sink) : Prop where
  out_pos : s.out_pos ≤ s'.out_pos
  written : ∀ i < s.out_pos, s'.out i = s.out i
  behind : ∀ i, s'.out_pos ≤ i → s'.out i = s.out i

instance : Preorder Sink where
  le := Sink.Grows
  le_refl _ := ⟨Nat.le_refl _, fun _ _ => rfl, fun _ _ => rfl⟩
  le_trans _ _ _ first second :=
    ⟨Nat.le_trans first.out_pos second.out_pos,
      fun i below => (second.written i (Nat.lt_of_lt_of_le below first.out_pos)).trans (first.written i below),
      fun i beyond => (second.behind i beyond).trans (first.behind i (Nat.le_trans second.out_pos beyond))⟩

/-- `emit` writes one byte. -/
theorem emit_ok {b : UInt8} {s s' : Sink} (emitted : emit b s = .ok s') :
    s.out_pos < s.out_len ∧ ∃ window, s.window.mapM (fun w => w.push b) = .ok window ∧
      s' = ⟨Function.update s.out s.out_pos b, s.out_len, s.out_pos + 1, window⟩ := by
  rw [emit] at emitted
  split at emitted
  · cases emitted
  · next room =>
    cases pushed : s.window.mapM fun w => w.push b with
    | error stop =>
        rw [pushed] at emitted
        cases emitted
    | ok window =>
        rw [pushed] at emitted
        cases emitted
        exact ⟨Nat.lt_of_not_le room, window, rfl, rfl⟩

theorem emit_grows {b : UInt8} {s s' : Sink} (emitted : emit b s = .ok s') : s ≤ s' := by
  obtain ⟨-, window, -, rfl⟩ := emit_ok emitted
  refine ⟨Nat.le_succ _, fun i below => ?_, fun i beyond => ?_⟩
  · exact Function.update_of_ne (Nat.ne_of_lt below) _ _
  · exact Function.update_of_ne (Nat.ne_of_gt beyond) _ _

/-! ## The limit -/

/-- The output with less room: what is not written yet is another buffer. -/
def Sink.limited (s : Sink) (buffer : Nat → UInt8) (room : Nat) : Sink :=
  { s with out := fun i => if i < s.out_pos then s.out i else buffer i, out_len := room }

section limited

variable (s : Sink) (buffer : Nat → UInt8) (room : Nat)

@[simp] theorem Sink.limited_out_pos : (s.limited buffer room).out_pos = s.out_pos := rfl

@[simp] theorem Sink.limited_out_len : (s.limited buffer room).out_len = room := rfl

@[simp] theorem Sink.limited_window : (s.limited buffer room).window = s.window := rfl

theorem Sink.limited_out {i : Nat} (written : i < s.out_pos) : (s.limited buffer room).out i = s.out i :=
  if_pos written

theorem Sink.limited_behind {i : Nat} (beyond : s.out_pos ≤ i) : (s.limited buffer room).out i = buffer i :=
  if_neg (Nat.not_lt_of_le beyond)

end limited

/-- The buffer is full of the first `room` bytes of the output. -/
structure Full (buffer : Nat → UInt8) (room : Nat) (halt : Halt) (s : Sink) : Prop where
  stop : halt.stop = errOutput
  enough : room ≤ s.out_pos
  out_pos : halt.sink.out_pos = room
  written : ∀ i < room, halt.sink.out i = s.out i
  behind : ∀ i, room ≤ i → halt.sink.out i = buffer i

/-- At most `room` bytes of output. -/
def outputLimit (buffer : Nat → UInt8) (room : Nat) : Limit Sink Halt where
  within s := s.out_pos ≤ room
  stops halt _ s := Full buffer room halt s
  spent _ := False
  within_of_le le holds := Nat.le_trans le.out_pos holds
  stops_of_le _ le full :=
    { full with
      enough := Nat.le_trans full.enough le.out_pos
      written := fun i below =>
        (full.written i below).trans (le.written i (Nat.lt_of_lt_of_le below full.enough)).symm }

variable {buffer : Nat → UInt8} {room : Nat}

/-- `run'` has less room than `run`. -/
abbrev Limited (buffer : Nat → UInt8) (room : Nat) (s : Sink) (run run' : Except Halt Sink) : Prop :=
  Follows (outputLimit buffer room) s id (fun s' => s'.limited buffer room) run run'

theorem readOut_limited {s : Sink} {index : Nat} (written : index < s.out_pos) (within : s.out_pos ≤ room)
    {b : UInt8} (read : stopAt s (s.readOut index) = .ok b) :
    stopAt (s.limited buffer room) ((s.limited buffer room).readOut index) = .ok b := by
  rw [stopAt_ok, Sink.readOut] at read
  rw [stopAt_ok, Sink.readOut, Sink.limited_out_len, if_pos (Nat.lt_of_lt_of_le written within),
    Sink.limited_out _ _ _ written]
  split at read
  · exact read
  · cases read

theorem emit_limited (b : UInt8) (s : Sink) :
    Limited buffer room s (Halting.emit b s) (Halting.emit b (s.limited buffer room)) where
  grows s' emitted := emit_grows (stopAt_ok.mp emitted)
  outcome within s' emitted := by
    obtain ⟨-, window, pushed, rfl⟩ := emit_ok (stopAt_ok.mp emitted)
    have within : s.out_pos ≤ room := within
    rw [Halting.emit, emit, Sink.limited_out_len, Sink.limited_out_pos, Sink.limited_window]
    by_cases full : room ≤ s.out_pos
    · have position : s.out_pos = room := Nat.le_antisymm within full
      rw [if_pos full]
      refine .stopped (Nat.not_le_of_lt (Nat.lt_succ_of_le full)) ⟨rfl, Nat.le_succ_of_le full, position, ?_, ?_⟩
      · intro i below
        rw [← position] at below
        exact (s.limited_out buffer room below).trans (Function.update_of_ne (Nat.ne_of_lt below) _ _).symm
      · intro i beyond
        rw [← position] at beyond
        exact s.limited_behind buffer room beyond
    · rw [if_neg full, pushed, ok_bind]
      have same : Function.update (s.limited buffer room).out s.out_pos b = fun i =>
          if i < s.out_pos + 1 then Function.update s.out s.out_pos b i else buffer i := by
        funext i
        by_cases here : i = s.out_pos
        · subst here
          rw [Function.update_self, if_pos (Nat.lt_succ_self _), Function.update_self]
        · rw [Function.update_of_ne here, Function.update_of_ne here, Sink.limited]
          have other : i < s.out_pos + 1 ↔ i < s.out_pos := by omega
          simp only [other]
      change Outcome _ _ _ _ (.ok { s.limited buffer room with
        out := Function.update (s.limited buffer room).out s.out_pos b, out_pos := s.out_pos + 1, window := window })
      rw [same]
      exact .done (Nat.succ_le_of_lt (Nat.lt_of_not_le full))

theorem copyOut_limited {start i : Nat} (len : Nat) (s : Sink) (behind : start + i < s.out_pos) :
    Limited buffer room s (Halting.copyOut start len i s)
      (Halting.copyOut start len i (s.limited buffer room)) := by
  induction len generalizing s i with
  | zero => exact .ok _ rfl
  | succ len ih =>
      refine .bind_same (fun within b read => readOut_limited behind within read) fun b _ => ?_
      refine .bind (emit_limited b s) fun s' emitted => ?_
      obtain ⟨-, window, -, rfl⟩ := emit_ok (stopAt_ok.mp emitted)
      exact ih _ (Nat.succ_lt_succ behind)

theorem copyWindow_limited (dist len : Nat) (s : Sink) :
    Limited buffer room s (Halting.copyWindow dist len s)
      (Halting.copyWindow dist len (s.limited buffer room)) := by
  induction len generalizing s with
  | zero => exact .ok _ rfl
  | succ len ih =>
      rw [Halting.copyWindow, Halting.copyWindow, Sink.limited_window]
      cases s.window with
      | none => exact .error
      | some w =>
          dsimp only
          split
          · refine .bind_same (fun _ _ => stopAt_ok_of) fun b _ => ?_
            exact .bind (emit_limited b s) fun s' _ => ih s'
          · next far =>
            rw [Sink.limited_out_pos]
            split
            · exact .error
            · have behind : s.out_pos - (dist - w.win_have) < s.out_pos := by omega
              refine .bind_same (fun within b read => readOut_limited behind within read) fun b _ => ?_
              exact .bind (emit_limited b s) fun s' _ => ih s'

theorem emitMatch_limited {dist : Nat} (positive : 0 < dist) (len : Nat) (s : Sink) :
    Limited buffer room s (Halting.emitMatch dist len s)
      (Halting.emitMatch dist len (s.limited buffer room)) := by
  rw [Halting.emitMatch, Halting.emitMatch, Sink.limited_out_pos, Sink.limited_window]
  split
  · exact .error
  · cases s.window with
    | none => exact copyOut_limited len s (by omega)
    | some w => exact copyWindow_limited dist len s

theorem emitMatch_grows {dist len : Nat} {s s' : Sink} (positive : 0 < dist)
    (copied : Halting.emitMatch dist len s = .ok s') : s ≤ s' := by
  have limited : Limited (fun _ => 0) 0 s _ _ := emitMatch_limited positive len s
  exact limited.grows s' copied

theorem copyStored_limited (reader : BitReader) (len k : Nat) (s : Sink) :
    Limited buffer room s (Halting.copyStored reader len k s)
      (Halting.copyStored reader len k (s.limited buffer room)) := by
  induction len generalizing s k with
  | zero => exact .ok _ rfl
  | succ len ih =>
      refine .bind_same (fun _ _ => stopAt_ok_of) fun b _ => ?_
      exact .bind (emit_limited b s) fun s' _ => ih (k + 1) s'

theorem copyStored_grows {reader : BitReader} {len k : Nat} {s s' : Sink}
    (copied : Halting.copyStored reader len k s = .ok s') : s ≤ s' := by
  have limited : Limited (fun _ => 0) 0 s _ _ := copyStored_limited reader len k s
  exact limited.grows s' copied

/-! ## Blocks -/

/-- The decoder with less room. -/
def InflateCtx.limited (s : InflateCtx) (buffer : Nat → UInt8) (room : Nat) : InflateCtx :=
  { s with sink := s.sink.limited buffer room }

/-- `run'` has less room than `run`. -/
abbrev LimitedCtx (buffer : Nat → UInt8) (room : Nat) (s : InflateCtx) (run run' : Except Halt InflateCtx) : Prop :=
  Follows (outputLimit buffer room) s.sink InflateCtx.sink (fun s' => s'.limited buffer room) run run'

/-- A computation that does not look at the output. -/
def Blind (build : InflateCtx → Except Stop InflateCtx) : Prop :=
  ∀ (s : InflateCtx) (sink : Sink),
    build { s with sink := sink } = build s >>= fun s' => pure { s' with sink := sink }

theorem buildFixed_blind : Blind buildFixed := by
  intro s sink
  simp only [buildFixed, bind_assoc, pure_bind]

theorem buildDynamic_blind : Blind buildDynamic := by
  intro s sink
  simp only [buildDynamic, bind_assoc]
  congr! with nlen ndist ncode
  split
  · rfl
  · simp only [bind_assoc]
    congr! with clens clcode lengths endOfBlock
    split
    · rfl
    · simp only [bind_assoc, pure_bind]

theorem Blind.sink_eq {build : InflateCtx → Except Stop InflateCtx} (blind : Blind build) {s s' : InflateCtx}
    (built : build s = .ok s') : s'.sink = s.sink := by
  have again := blind s s.sink
  rw [built, ok_bind] at again
  injection again with same
  have sinks := congrArg InflateCtx.sink same
  exact sinks

theorem Blind.limited {build : InflateCtx → Except Stop InflateCtx} (blind : Blind build) (s : InflateCtx) :
    LimitedCtx buffer room s (stopAt s.sink (build s))
      (stopAt (s.limited buffer room).sink (build (s.limited buffer room))) := by
  rw [InflateCtx.limited, blind s (s.sink.limited buffer room)]
  cases built : build s with
  | error stop => exact .error
  | ok s' =>
      have same := blind.sink_eq built
      rw [ok_bind, ← same]
      change Follows (outputLimit buffer room) s.sink InflateCtx.sink (fun s' => s'.limited buffer room) (.ok s')
        (.ok (s'.limited buffer room))
      exact .ok s' same

theorem inflateStored_limited (s : InflateCtx) :
    LimitedCtx buffer room s (Halting.inflateStored s) (Halting.inflateStored (s.limited buffer room)) := by
  rw [Halting.inflateStored, Halting.inflateStored, InflateCtx.limited]
  dsimp only
  split
  · exact .error
  · refine .bind_same (fun _ _ => stopAt_ok_of) fun b0 _ => ?_
    refine .bind_same (fun _ _ => stopAt_ok_of) fun b1 _ => ?_
    refine .bind_same (fun _ _ => stopAt_ok_of) fun b2 _ => ?_
    refine .bind_same (fun _ _ => stopAt_ok_of) fun b3 _ => ?_
    split
    · exact .error
    · split
      · exact .error
      · exact .bind (copyStored_limited _ _ 0 s.sink) fun sink _ => .ok _ rfl

/-- All distances are positive. -/
theorem distBase_pos : ∀ base ∈ distBase, 0 < base := by decide

theorem readAt_mem {α : Type} {table : List α} {index : Nat} {value : α} (read : readAt table index = .ok value) :
    value ∈ table := by
  rw [readAt] at read
  split at read
  · next found =>
    cases read
    exact List.mem_of_getElem? found
  · cases read

theorem inflateMatch_limited (sym : Nat) (s : InflateCtx) :
    LimitedCtx buffer room s (Halting.inflateMatch sym s) (Halting.inflateMatch sym (s.limited buffer room)) := by
  rw [Halting.inflateMatch, Halting.inflateMatch, InflateCtx.limited]
  dsimp only
  split
  · exact .error
  · refine .bind_same (fun _ _ => stopAt_ok_of) fun need _ => ?_
    refine .bind_same (fun _ _ => stopAt_ok_of) ?_
    rintro ⟨extra, reader⟩ -
    refine .bind_same (fun _ _ => stopAt_ok_of) fun base _ => ?_
    refine .bind_same (fun _ _ => stopAt_ok_of) ?_
    rintro ⟨dsym, reader⟩ -
    dsimp only
    split
    · exact .error
    · refine .bind_same (fun _ _ => stopAt_ok_of) fun need _ => ?_
      refine .bind_same (fun _ _ => stopAt_ok_of) ?_
      rintro ⟨extra, reader⟩ -
      refine .bind_same (fun _ _ => stopAt_ok_of) fun base read => ?_
      have positive := distBase_pos base (readAt_mem (stopAt_ok.mp read))
      exact .bind (emitMatch_limited (Nat.add_pos_left positive _) _ s.sink) fun sink _ => .ok _ rfl

theorem inflateSymbols_limited (fuel : Nat) (s : InflateCtx) :
    LimitedCtx buffer room s (Halting.inflateSymbols fuel s)
      (Halting.inflateSymbols fuel (s.limited buffer room)) := by
  induction fuel generalizing s with
  | zero => exact .error
  | succ fuel ih =>
      rw [Halting.inflateSymbols, Halting.inflateSymbols]
      refine .bind_same (fun _ _ => stopAt_ok_of) ?_
      rintro ⟨sym, reader⟩ -
      dsimp only
      split
      · exact .bind (emit_limited _ s.sink) fun sink _ => ih { s with reader := reader, sink := sink }
      · split
        · exact .ok _ rfl
        · exact .bind (inflateMatch_limited sym { s with reader := reader }) fun s' _ => ih s'

theorem inflateBlock_limited (type : Nat) (s : InflateCtx) :
    LimitedCtx buffer room s (Halting.inflateBlock type s)
      (Halting.inflateBlock type (s.limited buffer room)) := by
  rw [Halting.inflateBlock, Halting.inflateBlock]
  split
  · exact inflateStored_limited s
  · split
    · exact .bind (buildFixed_blind.limited s) fun s' _ => inflateSymbols_limited _ s'
    · split
      · exact .bind (buildDynamic_blind.limited s) fun s' _ => inflateSymbols_limited _ s'
      · exact .error

/-- The block loop with less room. -/
theorem inflateBlocks_limited (buffer : Nat → UInt8) (room fuel : Nat) (s : InflateCtx) :
    LimitedCtx buffer room s (Halting.inflateBlocks fuel s)
      (Halting.inflateBlocks fuel (s.limited buffer room)) := by
  induction fuel generalizing s with
  | zero => exact .error
  | succ fuel ih =>
      rw [Halting.inflateBlocks, Halting.inflateBlocks]
      refine .bind_same (fun _ _ => stopAt_ok_of) ?_
      rintro ⟨last, reader⟩ -
      refine .bind_same (fun _ _ => stopAt_ok_of) ?_
      rintro ⟨type, reader⟩ -
      refine .bind (inflateBlock_limited type { s with reader := reader }) fun s' _ => ?_
      split
      · exact .ok _ rfl
      · exact ih s'

/-! ## The call -/

/-- When a call with enough room delivers `s`, a call with less room stops with a full
buffer, and every other call delivers the same bytes. -/
theorem inflateRawStream_limit (input : List UInt8) (buffer buffer' : Nat → UInt8) (capacity out_len : Nat)
    (count : Int) (s : InflateCtx) (decoded : Halting.inflateRawStream input buffer capacity = .ok (count, s)) :
    (out_len < s.sink.out_pos → ∃ sink,
      Halting.inflateRawStream input buffer' out_len = .error ⟨errOutput, sink⟩ ∧ sink.out_pos = out_len ∧
        (∀ i < out_len, sink.out i = s.sink.out i) ∧ ∀ i, out_len ≤ i → sink.out i = buffer' i) ∧
    (s.sink.out_pos ≤ out_len → ∃ s',
      Halting.inflateRawStream input buffer' out_len = .ok (count, s') ∧ s'.sink.out_pos = s.sink.out_pos ∧
        (∀ i < s.sink.out_pos, s'.sink.out i = s.sink.out i) ∧
        ∀ i, s.sink.out_pos ≤ i → s'.sink.out i = buffer' i) := by
  rw [Halting.inflateRawStream] at decoded
  cases raw : Halting.inflateRaw input buffer capacity none with
  | error halt =>
      rw [raw] at decoded
      cases decoded
  | ok last =>
      rw [raw] at decoded
      cases decoded
      have start : (⟨⟨input, 0, 0, 0⟩, ⟨buffer, capacity, 0, none⟩, .empty, .empty⟩ : InflateCtx).limited
          buffer' out_len = ⟨⟨input, 0, 0, 0⟩, ⟨buffer', out_len, 0, none⟩, .empty, .empty⟩ := by
        simp only [InflateCtx.limited, Sink.limited, Nat.not_lt_zero, if_false]
      have follows := inflateBlocks_limited buffer' out_len (loopFuel ⟨input, 0, 0, 0⟩)
        ⟨⟨input, 0, 0, 0⟩, ⟨buffer, capacity, 0, none⟩, .empty, .empty⟩
      rw [start] at follows
      have outcome : Outcome (outputLimit buffer' out_len) _ s.sink (s.limited buffer' out_len)
          (Halting.inflateRaw input buffer' out_len none) := follows.outcome (Nat.zero_le _) s raw
      rw [Halting.inflateRawStream]
      generalize Halting.inflateRaw input buffer' out_len none = run at outcome
      constructor
      · intro short
        cases outcome with
        | done within => exact absurd within (Nat.not_le_of_lt short)
        | @stopped halt beyond full =>
            obtain ⟨stop, -, position, written, behind⟩ := full
            exact ⟨halt.sink, by rw [error_bind, ← stop], position, written, behind⟩
        | spent never => exact never.elim
      · intro enough
        cases outcome with
        | done within =>
            refine ⟨_, rfl, rfl, fun i below => ?_, fun i beyond => ?_⟩
            · exact s.sink.limited_out buffer' out_len below
            · exact s.sink.limited_behind buffer' out_len beyond
        | stopped beyond => exact absurd enough beyond
        | spent never => exact never.elim

/-- A call that decodes eight letters. -/
theorem repeatedLetter_decoded : ∃ s, Halting.inflateRawStream repeatedLetter (fun _ => 0) 8 = .ok (8, s) ∧
    s.sink.out_pos = 8 := by
  obtain ⟨s, run, done⟩ := inflateRaw_of_inflates (fun _ => 0) repeatedLetter_inflates
    (show (List.replicate 8 (97 : UInt8)).length ≤ 8 by decide)
  have run' : Halting.inflateRaw repeatedLetter (fun _ => 0) 8 none = .ok s :=
    ok_of_forget ((Halting.forget_inflateRaw _ _ _ _).trans run)
  refine ⟨s, ?_, done.out_pos⟩
  rw [Halting.inflateRawStream, run', ok_bind, done.out_pos]
  rfl

theorem inflateRawStream_limit_repeatedLetter : ∃ sink,
    Halting.inflateRawStream repeatedLetter (fun _ => 1) 5 = .error ⟨errOutput, sink⟩ ∧ sink.out_pos = 5 := by
  obtain ⟨s, decoded, whole⟩ := repeatedLetter_decoded
  obtain ⟨sink, run, position, -⟩ :=
    (inflateRawStream_limit repeatedLetter (fun _ => 0) (fun _ => 1) 8 5 8 s decoded).1 (by rw [whole]; decide)
  exact ⟨sink, run, position⟩

end Systrix.Inflate
