import Systrix.Inflate.Decoder

/-!
# The output of a call that stops

The functions of `kernel/inflate.c` that write, with the output side of
`inflate_ctx` as it is when they stop: this is what the caller finds in its buffer
after an error.  Apart from that they are those of the decoder.
-/

namespace Systrix.Inflate

open Machine Fallible

/-- A stop and the output at this point. -/
structure Halt where
  stop : Stop
  sink : Sink

/-- A computation that does not write. -/
def stopAt {α : Type} (sink : Sink) (run : Except Stop α) : Except Halt α :=
  run.mapError fun stop => ⟨stop, sink⟩

namespace Halting

/-! ## Output -/

/-- `emit`, which writes nothing if it stops. -/
def emit (b : UInt8) (s : Sink) : Except Halt Sink := stopAt s (Inflate.emit b s)

/-- The copy loop of `emit_match` without a window. -/
def copyOut (start : Nat) : (len i : Nat) → Sink → Except Halt Sink
  | 0, _, s => pure s
  | len + 1, i, s => do
      let b ← stopAt s (s.readOut (start + i))
      let s ← emit b s
      copyOut start len (i + 1) s

/-- The copy loop of `emit_match` with a window. -/
def copyWindow (dist : Nat) : (len : Nat) → Sink → Except Halt Sink
  | 0, s => pure s
  | len + 1, s =>
      match s.window with
      | none => throw ⟨.outOfBounds, s⟩
      | some w =>
          if dist ≤ w.win_have then do
            let b ← stopAt s (readAt w.bytes ((w.win_pos + 32768 - dist) &&& 32767))
            let s ← emit b s
            copyWindow dist len s
          else
            let back := dist - w.win_have
            if s.out_pos < back then throw ⟨errData, s⟩
            else do
              let b ← stopAt s (s.readOut (s.out_pos - back))
              let s ← emit b s
              copyWindow dist len s

def emitMatch (dist len : Nat) (s : Sink) : Except Halt Sink :=
  if s.out_pos < dist then throw ⟨errData, s⟩
  else
    match s.window with
    | none => copyOut (s.out_pos - dist) len 0 s
    | some _ => copyWindow dist len s

/-! ## Blocks -/

/-- The copy loop of a stored block. -/
def copyStored (reader : BitReader) : (len k : Nat) → Sink → Except Halt Sink
  | 0, _, sink => pure sink
  | len + 1, k, sink => do
      let b ← stopAt sink (readAt reader.input (reader.in_pos + k))
      let sink ← emit b sink
      copyStored reader len (k + 1) sink

/-- A stored block of `inflate_raw`. -/
def inflateStored (s : InflateCtx) : Except Halt InflateCtx :=
  let reader := { s.reader with bitbuf := 0, bitcnt := 0 }
  if reader.in_len < reader.in_pos + 4 then throw ⟨errInput, s.sink⟩
  else do
    let b0 ← stopAt s.sink (readAt reader.input reader.in_pos)
    let b1 ← stopAt s.sink (readAt reader.input (reader.in_pos + 1))
    let b2 ← stopAt s.sink (readAt reader.input (reader.in_pos + 2))
    let b3 ← stopAt s.sink (readAt reader.input (reader.in_pos + 3))
    let len := b0.toNat ||| (b1.toNat <<< 8)
    let nlen := b2.toNat ||| (b3.toNat <<< 8)
    let reader := { reader with in_pos := reader.in_pos + 4 }
    if len ^^^ 0xFFFF ≠ nlen then throw ⟨errData, s.sink⟩
    else if reader.in_len < reader.in_pos + len then throw ⟨errInput, s.sink⟩
    else do
      let sink ← copyStored reader len 0 s.sink
      pure { s with reader := { reader with in_pos := reader.in_pos + len }, sink := sink }

/-- A match of `inflate_raw`, after its length symbol. -/
def inflateMatch (sym : Nat) (s : InflateCtx) : Except Halt InflateCtx :=
  let sym := sym - 257
  if 29 ≤ sym then throw ⟨errData, s.sink⟩
  else do
    let need ← stopAt s.sink (readAt lenExtra sym)
    let (extra, reader) ← stopAt s.sink (bits need s.reader)
    let base ← stopAt s.sink (readAt lenBase sym)
    let length := base + extra
    let (dsym, reader) ← stopAt s.sink (decode s.distcode reader)
    if 30 ≤ dsym then throw ⟨errData, s.sink⟩
    else do
      let need ← stopAt s.sink (readAt distExtra dsym)
      let (extra, reader) ← stopAt s.sink (bits need reader)
      let base ← stopAt s.sink (readAt distBase dsym)
      let dist := base + extra
      let sink ← emitMatch dist length s.sink
      pure { s with reader := reader, sink := sink }

/-- The symbol loop of a compressed block of `inflate_raw`. -/
def inflateSymbols : (fuel : Nat) → InflateCtx → Except Halt InflateCtx
  | 0, s => throw ⟨.unfinished, s.sink⟩
  | fuel + 1, s => do
      let (sym, reader) ← stopAt s.sink (decode s.lencode s.reader)
      let s := { s with reader := reader }
      if sym < 256 then do
        let sink ← emit (UInt8.ofNat sym) s.sink
        inflateSymbols fuel { s with sink := sink }
      else if sym = 256 then pure s
      else do
        let s ← inflateMatch sym s
        inflateSymbols fuel s

/-- One round of the block loop of `inflate_raw`, after its header. -/
def inflateBlock (type : Nat) (s : InflateCtx) : Except Halt InflateCtx :=
  if type = 0 then inflateStored s
  else if type = 1 then do
    let s ← stopAt s.sink (buildFixed s)
    inflateSymbols (loopFuel s.reader) s
  else if type = 2 then do
    let s ← stopAt s.sink (buildDynamic s)
    inflateSymbols (loopFuel s.reader) s
  else throw ⟨errData, s.sink⟩

/-- The block loop of `inflate_raw`. -/
def inflateBlocks : (fuel : Nat) → InflateCtx → Except Halt InflateCtx
  | 0, s => throw ⟨.unfinished, s.sink⟩
  | fuel + 1, s => do
      let (last, reader) ← stopAt s.sink (bits 1 s.reader)
      let (type, reader) ← stopAt s.sink (bits 2 reader)
      let s ← inflateBlock type { s with reader := reader }
      if last ≠ 0 then pure s else inflateBlocks fuel s

/-- `inflate_raw` up to its last statement. -/
def inflateRaw (input : List UInt8) (out : Nat → UInt8) (out_len : Nat)
    (window : Option Window) : Except Halt InflateCtx :=
  let reader : BitReader := ⟨input, 0, 0, 0⟩
  inflateBlocks (loopFuel reader) ⟨reader, ⟨out, out_len, 0, window⟩, .empty, .empty⟩

/-- `inflate_raw_stream`: the returned count and the final state, or the error and the
output. -/
def inflateRawStream (input : List UInt8) (out : Nat → UInt8) (out_len : Nat) :
    Except Halt (Int × InflateCtx) := do
  let s ← inflateRaw input out out_len none
  pure (toInt32 s.sink.out_pos, s)

end Halting

/-! ## The same decoder -/

/-- Only the stop. -/
def forget {α : Type} (run : Except Halt α) : Except Stop α := run.mapError Halt.stop

section forget

variable {α β : Type}

@[simp] theorem forget_stopAt (sink : Sink) (run : Except Stop α) : forget (stopAt sink run) = run := by
  cases run <;> rfl

@[simp] theorem forget_bind (run : Except Halt α) (next : α → Except Halt β) :
    forget (run >>= next) = forget run >>= fun result => forget (next result) := by
  cases run <;> rfl

@[simp] theorem forget_pure (result : α) : forget (pure result : Except Halt α) = pure result := rfl

@[simp] theorem forget_throw (halt : Halt) : forget (throw halt : Except Halt α) = throw halt.stop := rfl

theorem ok_of_forget {run : Except Halt α} {result : α} (found : forget run = .ok result) : run = .ok result := by
  cases run with
  | ok result' =>
      cases found
      rfl
  | error halt => cases found

theorem stopAt_ok {sink : Sink} {run : Except Stop α} {result : α} :
    stopAt sink run = .ok result ↔ run = .ok result := by
  constructor
  · intro found
    rw [← forget_stopAt sink run, found]
    rfl
  · rintro rfl
    rfl

/-- A read that succeeds does so with whatever was written. -/
theorem stopAt_ok_of {sink sink' : Sink} {run : Except Stop α} {result : α} (read : stopAt sink run = .ok result) :
    stopAt sink' run = .ok result :=
  stopAt_ok.mpr (stopAt_ok.mp read)

end forget

namespace Halting

@[simp] theorem forget_emit (b : UInt8) (s : Sink) : forget (emit b s) = Inflate.emit b s := forget_stopAt _ _

@[simp] theorem forget_copyOut (start len i : Nat) (s : Sink) :
    forget (copyOut start len i s) = Inflate.copyOut start len i s := by
  induction len generalizing i s with
  | zero => rfl
  | succ len ih => simp only [copyOut, Inflate.copyOut, forget_bind, forget_stopAt, forget_emit, ih]

@[simp] theorem forget_copyWindow (dist len : Nat) (s : Sink) :
    forget (copyWindow dist len s) = Inflate.copyWindow dist len s := by
  induction len generalizing s with
  | zero => rfl
  | succ len ih =>
      rw [copyWindow, Inflate.copyWindow]
      cases s.window with
      | none => rfl
      | some w =>
          dsimp only
          split
          · simp only [forget_bind, forget_stopAt, forget_emit, ih]
          · split
            · rfl
            · simp only [forget_bind, forget_stopAt, forget_emit, ih]

@[simp] theorem forget_emitMatch (dist len : Nat) (s : Sink) :
    forget (emitMatch dist len s) = Inflate.emitMatch dist len s := by
  rw [emitMatch, Inflate.emitMatch]
  split
  · rfl
  · cases s.window with
    | none => exact forget_copyOut _ _ _ _
    | some w => exact forget_copyWindow _ _ _

@[simp] theorem forget_copyStored (reader : BitReader) (len k : Nat) (sink : Sink) :
    forget (copyStored reader len k sink) = Inflate.copyStored reader len k sink := by
  induction len generalizing k sink with
  | zero => rfl
  | succ len ih => simp only [copyStored, Inflate.copyStored, forget_bind, forget_stopAt, forget_emit, ih]

@[simp] theorem forget_inflateStored (s : InflateCtx) : forget (inflateStored s) = Inflate.inflateStored s := by
  rw [inflateStored, Inflate.inflateStored]
  dsimp only
  split
  · rfl
  · simp only [forget_bind, forget_stopAt]
    congr! with b0 b1 b2 b3
    split
    · rfl
    · split
      · rfl
      · simp only [forget_bind, forget_copyStored, forget_pure]

@[simp] theorem forget_inflateMatch (sym : Nat) (s : InflateCtx) :
    forget (inflateMatch sym s) = Inflate.inflateMatch sym s := by
  rw [inflateMatch, Inflate.inflateMatch]
  dsimp only
  split
  · rfl
  · simp only [forget_bind, forget_stopAt]
    congr! with need extra base dsym
    split
    · rfl
    · simp only [forget_bind, forget_stopAt, forget_emitMatch, forget_pure]

@[simp] theorem forget_inflateSymbols (fuel : Nat) (s : InflateCtx) :
    forget (inflateSymbols fuel s) = Inflate.inflateSymbols fuel s := by
  induction fuel generalizing s with
  | zero => rfl
  | succ fuel ih =>
      simp only [inflateSymbols, Inflate.inflateSymbols, forget_bind, forget_stopAt]
      congr! with sym
      split
      · simp only [forget_bind, forget_emit, ih]
      · split
        · rfl
        · simp only [forget_bind, forget_inflateMatch, ih]

@[simp] theorem forget_inflateBlock (type : Nat) (s : InflateCtx) :
    forget (inflateBlock type s) = Inflate.inflateBlock type s := by
  rw [inflateBlock, Inflate.inflateBlock]
  split
  · exact forget_inflateStored s
  · split
    · simp only [forget_bind, forget_stopAt, forget_inflateSymbols]
    · split
      · simp only [forget_bind, forget_stopAt, forget_inflateSymbols]
      · rfl

@[simp] theorem forget_inflateBlocks (fuel : Nat) (s : InflateCtx) :
    forget (inflateBlocks fuel s) = Inflate.inflateBlocks fuel s := by
  induction fuel generalizing s with
  | zero => rfl
  | succ fuel ih =>
      simp only [inflateBlocks, Inflate.inflateBlocks, forget_bind, forget_stopAt, forget_inflateBlock]
      congr! with last type s'
      split
      · rfl
      · exact ih s'

/-- The calls return the same, with the same state where there is no error. -/
@[simp] theorem forget_inflateRaw (input : List UInt8) (out : Nat → UInt8) (out_len : Nat) (window : Option Window) :
    forget (inflateRaw input out out_len window) = Inflate.inflateRaw input out out_len window :=
  forget_inflateBlocks _ _

theorem forget_inflateRawStream (input : List UInt8) (out : Nat → UInt8) (out_len : Nat) :
    forget (inflateRawStream input out out_len) = Inflate.inflateRawStream input out out_len := by
  rw [inflateRawStream, forget_bind, forget_inflateRaw]
  rfl

end Halting

end Systrix.Inflate
