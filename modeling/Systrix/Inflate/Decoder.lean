import Systrix.Lib.Machine
import Systrix.Lib.Fallible

/-!
# Inflate

The DEFLATE decoder of `kernel/inflate.c`.  Every table, input and output access
is checked: an index outside the object stops the decoder with `outOfBounds`.
Negative return values of the source are the `failed` stops of the model.
-/

namespace Systrix.Inflate

open Machine

/-- Why a call did not deliver its result. -/
inductive Stop where
  /-- Return of a negative error code. -/
  | failed (code : Int)
  /-- Access outside an array. -/
  | outOfBounds
  /-- A loop has used up its fuel. -/
  | unfinished
  deriving DecidableEq, Repr

/-- `INFLATE_ERR_DATA` -/
def errData : Stop := .failed (-1)

/-- `INFLATE_ERR_OUTPUT` -/
def errOutput : Stop := .failed (-2)

/-- `INFLATE_ERR_INPUT` -/
def errInput : Stop := .failed (-3)

def maxBits : Nat := 15

/-- Value of an expression of type `u16`. -/
def u16 (value : Nat) : Nat := value % 2 ^ 16

/-! ## Checked access -/

/-- `table[index]` -/
def readAt {α : Type} (table : List α) (index : Nat) : Except Stop α :=
  match table[index]? with
  | some value => pure value
  | none => throw .outOfBounds

/-- `table[index]` for a signed index. -/
def readAtInt {α : Type} (table : List α) (index : Int) : Except Stop α :=
  if 0 ≤ index then readAt table index.toNat else throw .outOfBounds

/-- `table[index] = value` -/
def writeAt {α : Type} (table : List α) (index : Nat) (value : α) : Except Stop (List α) :=
  if index < table.length then pure (table.set index value) else throw .outOfBounds

/-! ## State -/

/-- `huff_t` -/
structure Huff where
  counts : List Nat
  symbols : List Nat
  deriving DecidableEq, Repr

/-- Memory of a `huff_t` before anything is built in it. -/
def Huff.empty : Huff := ⟨List.replicate (maxBits + 1) 0, List.replicate 288 0⟩

/-- The input side of `inflate_ctx`. -/
structure BitReader where
  input : List UInt8
  in_pos : Nat
  bitbuf : Nat
  bitcnt : Nat

/-- `in_len` -/
def BitReader.in_len (s : BitReader) : Nat := s.input.length

/-- The 32 KiB sliding window of `inflate_ctx`. -/
structure Window where
  bytes : List UInt8
  win_pos : Nat
  win_have : Nat

/-- The output side of `inflate_ctx`; `none` is a null `window`. -/
structure Sink where
  out : Nat → UInt8
  out_len : Nat
  out_pos : Nat
  window : Option Window

/-- `inflate_ctx` -/
structure InflateCtx where
  reader : BitReader
  sink : Sink
  lencode : Huff
  distcode : Huff

/-! ## Huffman tables -/

/-- The counting loop of `huff_build`. -/
def countLengths (lengths : List Nat) (n : Nat) : Except Stop (List Nat) :=
  (List.range n).foldlM (fun counts symbol => do
    let len ← readAt lengths symbol
    let count ← readAt counts len
    writeAt counts len (u16 (count + 1))) (List.replicate (maxBits + 1) 0)

/-- The check for an over-subscribed set of lengths; the result is `left`. -/
def checkLeft (counts : List Nat) : Except Stop Int :=
  (List.range maxBits).foldlM (fun left i => do
    let count ← readAt counts (i + 1)
    let left := left * 2 - count
    if left < 0 then throw errData
    pure left) 1

/-- The offsets of the lengths in `symbols`. -/
def buildOffsets (counts : List Nat) : Except Stop (List Nat) :=
  (List.range (maxBits - 1)).foldlM (fun offs i => do
    let off ← readAt offs (i + 1)
    let count ← readAt counts (i + 1)
    writeAt offs (i + 2) (u16 (off + count))) (List.replicate (maxBits + 1) 0)

/-- Fill `symbols` in canonical order. -/
def fillSymbols (lengths offs symbols : List Nat) (n : Nat) :
    Except Stop (List Nat × List Nat) :=
  (List.range n).foldlM (fun (offs, symbols) symbol => do
    let len ← readAt lengths symbol
    if len = 0 then pure (offs, symbols)
    else
      let off ← readAt offs len
      let symbols ← writeAt symbols off (u16 symbol)
      let offs ← writeAt offs len (u16 (off + 1))
      pure (offs, symbols)) (offs, symbols)

def huffBuild (h : Huff) (lengths : List Nat) (n : Nat) : Except Stop Huff := do
  let counts ← countLengths lengths n
  let unused ← readAt counts 0
  if unused = n then pure { h with counts := counts }
  else
    let _ ← checkLeft counts
    let offs ← buildOffsets counts
    let (_, symbols) ← fillSymbols lengths offs h.symbols n
    pure ⟨counts, symbols⟩

/-! ## Bit reader -/

/-- The loop of `bits`: take bytes until `need` bits are there. -/
def fillBits (need val : Nat) (s : BitReader) : Except Stop (Nat × BitReader) :=
  if s.bitcnt < need then
    if s.in_len ≤ s.in_pos then throw errInput
    else do
      let byte ← readAt s.input s.in_pos
      fillBits need (val ||| u32 (byte.toNat <<< s.bitcnt))
        { s with in_pos := s.in_pos + 1, bitcnt := s.bitcnt + 8 }
  else pure (val, s)
termination_by need - s.bitcnt

def bits (need : Nat) (s : BitReader) : Except Stop (Nat × BitReader) := do
  let (val, s) ← fillBits need s.bitbuf s
  pure (val &&& ((1 <<< need) - 1), { s with bitbuf := val >>> need, bitcnt := s.bitcnt - need })

/-- The loop of `decode` from code length `len` on; `remaining` counts the lengths
up to `MAX_BITS`. -/
def decodeLoop (h : Huff) : (remaining len : Nat) → (code first index : Int) → BitReader →
    Except Stop (Nat × BitReader)
  | 0, _, _, _, _, _ => throw errData
  | remaining + 1, len, code, first, index, s => do
      let (b, s) ← bits 1 s
      -- the low bit of `code` is clear, so `|=` adds the bit
      let code := code + b
      let count ← readAt h.counts len
      if code - first < count then
        let symbol ← readAtInt h.symbols (index + (code - first))
        pure (symbol, s)
      else
        decodeLoop h remaining (len + 1) (code * 2) ((first + count) * 2) (index + count) s

def decode (h : Huff) (s : BitReader) : Except Stop (Nat × BitReader) :=
  decodeLoop h maxBits 1 0 0 0 s

/-! ## Output -/

/-- Append a byte to the sliding window. -/
def Window.push (w : Window) (b : UInt8) : Except Stop Window := do
  let bytes ← writeAt w.bytes w.win_pos b
  pure { bytes := bytes
         win_pos := if 32768 ≤ w.win_pos + 1 then 0 else w.win_pos + 1
         win_have := if w.win_have < 32768 then w.win_have + 1 else w.win_have }

/-- `s->out[index]` -/
def Sink.readOut (s : Sink) (index : Nat) : Except Stop UInt8 :=
  if index < s.out_len then pure (s.out index) else throw .outOfBounds

def emit (b : UInt8) (s : Sink) : Except Stop Sink :=
  if s.out_len ≤ s.out_pos then throw errOutput
  else do
    let window ← s.window.mapM fun w => w.push b
    pure { s with out := Function.update s.out s.out_pos b, out_pos := s.out_pos + 1,
                  window := window }

/-- The copy loop of `emit_match` without a window. -/
def copyOut (start : Nat) : (len i : Nat) → Sink → Except Stop Sink
  | 0, _, s => pure s
  | len + 1, i, s => do
      let b ← s.readOut (start + i)
      let s ← emit b s
      copyOut start len (i + 1) s

/-- The copy loop of `emit_match` with a window. -/
def copyWindow (dist : Nat) : (len : Nat) → Sink → Except Stop Sink
  | 0, s => pure s
  | len + 1, s =>
      match s.window with
      | none => throw .outOfBounds
      | some w =>
          if dist ≤ w.win_have then do
            let b ← readAt w.bytes ((w.win_pos + 32768 - dist) &&& 32767)
            let s ← emit b s
            copyWindow dist len s
          else
            let back := dist - w.win_have
            if s.out_pos < back then throw errData
            else do
              let b ← s.readOut (s.out_pos - back)
              let s ← emit b s
              copyWindow dist len s

def emitMatch (dist len : Nat) (s : Sink) : Except Stop Sink :=
  if s.out_pos < dist then throw errData
  else
    match s.window with
    | none => copyOut (s.out_pos - dist) len 0 s
    | some _ => copyWindow dist len s

/-! ## Blocks -/

def lenBase : List Nat :=
  [3, 4, 5, 6, 7, 8, 9, 10, 11, 13, 15, 17, 19, 23, 27, 31, 35, 43, 51, 59, 67, 83, 99, 115, 131,
    163, 195, 227, 258]

def lenExtra : List Nat :=
  [0, 0, 0, 0, 0, 0, 0, 0, 1, 1, 1, 1, 2, 2, 2, 2, 3, 3, 3, 3, 4, 4, 4, 4, 5, 5, 5, 5, 0]

def distBase : List Nat :=
  [1, 2, 3, 4, 5, 7, 9, 13, 17, 25, 33, 49, 65, 97, 129, 193, 257, 385, 513, 769, 1025, 1537, 2049,
    3073, 4097, 6145, 8193, 12289, 16385, 24577]

def distExtra : List Nat :=
  [0, 0, 0, 0, 1, 1, 2, 2, 3, 3, 4, 4, 5, 5, 6, 6, 7, 7, 8, 8, 9, 9, 10, 10, 11, 11, 12, 12, 13, 13]

/-- The code lengths `build_fixed` builds the literal/length table from. -/
def fixedLengths : List Nat :=
  List.replicate 144 8 ++ List.replicate 112 9 ++ List.replicate 24 7 ++ List.replicate 8 8

def buildFixed (s : InflateCtx) : Except Stop InflateCtx := do
  let lencode ← huffBuild s.lencode fixedLengths 288
  let distcode ← huffBuild s.distcode (List.replicate 30 5 ++ fixedLengths.drop 30) 30
  pure { s with lencode := lencode, distcode := distcode }

def clenOrder : List Nat :=
  [16, 17, 18, 0, 8, 7, 9, 6, 10, 5, 11, 4, 12, 3, 13, 2, 14, 1, 15]

/-- The loop of `build_dynamic` that reads the lengths of the code length code. -/
def readClens (ncode : Nat) (s : BitReader) : Except Stop (List Nat × BitReader) :=
  (List.range ncode).foldlM (fun (clens, s) i => do
    let (v, s) ← bits 3 s
    let position ← readAt clenOrder i
    let clens ← writeAt clens position v
    pure (clens, s)) (List.replicate 19 0, s)

/-- `while (rep--) lengths[i++] = val` -/
def repeatLength (val : Nat) : (rep i : Nat) → List Nat → Except Stop (List Nat)
  | 0, _, lengths => pure lengths
  | rep + 1, i, lengths => do
      let lengths ← writeAt lengths i val
      repeatLength val rep (i + 1) lengths

/-- The value and the count a repeat symbol of `build_dynamic` stands for. -/
def readRepeat (sym i : Nat) (lengths : List Nat) (s : BitReader) :
    Except Stop (Nat × Nat × BitReader) :=
  if sym = 16 then
    if i = 0 then throw errData
    else do
      let val ← readAt lengths (i - 1)
      let (rep, s) ← bits 2 s
      pure (val, rep + 3, s)
  else if sym = 17 then do
    let (rep, s) ← bits 3 s
    pure (0, rep + 3, s)
  else do
    let (rep, s) ← bits 7 s
    pure (0, rep + 11, s)

/-- The loop of `build_dynamic` over the `total` code lengths. -/
def readLengths (clcode : Huff) (total : Nat) :
    (fuel i : Nat) → List Nat → BitReader → Except Stop (List Nat × BitReader)
  | 0, _, _, _ => throw .unfinished
  | fuel + 1, i, lengths, s =>
      if i < total then do
        let (sym, s) ← decode clcode s
        if sym < 16 then do
          let lengths ← writeAt lengths i sym
          readLengths clcode total fuel (i + 1) lengths s
        else do
          let (val, rep, s) ← readRepeat sym i lengths s
          if total < i + rep then throw errData
          else do
            let lengths ← repeatLength val rep i lengths
            readLengths clcode total fuel (i + rep) lengths s
      else pure (lengths, s)

def buildDynamic (s : InflateCtx) : Except Stop InflateCtx := do
  -- the source tests the three fields after reading them all
  let (nlen, reader) ← bits 5 s.reader
  let (ndist, reader) ← bits 5 reader
  let (ncode, reader) ← bits 4 reader
  let nlen := nlen + 257
  let ndist := ndist + 1
  let ncode := ncode + 4
  if 286 < nlen ∨ 30 < ndist then throw errData
  else do
    let (clens, reader) ← readClens ncode reader
    let clcode ← huffBuild Huff.empty clens 19
    let (lengths, reader) ←
      readLengths clcode (nlen + ndist) (nlen + ndist + 1) 0 (List.replicate (288 + 30) 0) reader
    let endOfBlock ← readAt lengths 256
    if endOfBlock = 0 then throw errData
    else do
      let lencode ← huffBuild s.lencode lengths nlen
      let distcode ← huffBuild s.distcode (lengths.drop nlen) ndist
      pure ⟨reader, s.sink, lencode, distcode⟩

/-- The copy loop of a stored block. -/
def copyStored (reader : BitReader) : (len k : Nat) → Sink → Except Stop Sink
  | 0, _, sink => pure sink
  | len + 1, k, sink => do
      let b ← readAt reader.input (reader.in_pos + k)
      let sink ← emit b sink
      copyStored reader len (k + 1) sink

/-- A stored block of `inflate_raw`. -/
def inflateStored (s : InflateCtx) : Except Stop InflateCtx :=
  let reader := { s.reader with bitbuf := 0, bitcnt := 0 }
  if reader.in_len < reader.in_pos + 4 then throw errInput
  else do
    let b0 ← readAt reader.input reader.in_pos
    let b1 ← readAt reader.input (reader.in_pos + 1)
    let b2 ← readAt reader.input (reader.in_pos + 2)
    let b3 ← readAt reader.input (reader.in_pos + 3)
    let len := b0.toNat ||| (b1.toNat <<< 8)
    let nlen := b2.toNat ||| (b3.toNat <<< 8)
    let reader := { reader with in_pos := reader.in_pos + 4 }
    if len ^^^ 0xFFFF ≠ nlen then throw errData
    else if reader.in_len < reader.in_pos + len then throw errInput
    else do
      let sink ← copyStored reader len 0 s.sink
      pure { s with reader := { reader with in_pos := reader.in_pos + len }, sink := sink }

/-- A match of `inflate_raw`, after its length symbol. -/
def inflateMatch (sym : Nat) (s : InflateCtx) : Except Stop InflateCtx :=
  let sym := sym - 257
  if 29 ≤ sym then throw errData
  else do
    let need ← readAt lenExtra sym
    let (extra, reader) ← bits need s.reader
    let base ← readAt lenBase sym
    let length := base + extra
    let (dsym, reader) ← decode s.distcode reader
    if 30 ≤ dsym then throw errData
    else do
      let need ← readAt distExtra dsym
      let (extra, reader) ← bits need reader
      let base ← readAt distBase dsym
      let dist := base + extra
      let sink ← emitMatch dist length s.sink
      pure { s with reader := reader, sink := sink }

/-- The symbol loop of a compressed block of `inflate_raw`. -/
def inflateSymbols : (fuel : Nat) → InflateCtx → Except Stop InflateCtx
  | 0, _ => throw .unfinished
  | fuel + 1, s => do
      let (sym, reader) ← decode s.lencode s.reader
      let s := { s with reader := reader }
      if sym < 256 then do
        let sink ← emit (UInt8.ofNat sym) s.sink
        inflateSymbols fuel { s with sink := sink }
      else if sym = 256 then pure s
      else do
        let s ← inflateMatch sym s
        inflateSymbols fuel s

/-- Upper bound on the rounds of the loops: each reads at least one bit. -/
def loopFuel (s : BitReader) : Nat := 8 * s.in_len + 1

/-- One round of the block loop of `inflate_raw`, after its header. -/
def inflateBlock (type : Nat) (s : InflateCtx) : Except Stop InflateCtx :=
  if type = 0 then inflateStored s
  else if type = 1 then do
    let s ← buildFixed s
    inflateSymbols (loopFuel s.reader) s
  else if type = 2 then do
    let s ← buildDynamic s
    inflateSymbols (loopFuel s.reader) s
  else throw errData

/-- The block loop of `inflate_raw`. -/
def inflateBlocks : (fuel : Nat) → InflateCtx → Except Stop InflateCtx
  | 0, _ => throw .unfinished
  | fuel + 1, s => do
      let (last, reader) ← bits 1 s.reader
      let (type, reader) ← bits 2 reader
      let s ← inflateBlock type { s with reader := reader }
      if last ≠ 0 then pure s else inflateBlocks fuel s

/-- `inflate_raw` up to its last statement. -/
def inflateRaw (input : List UInt8) (out : Nat → UInt8) (out_len : Nat)
    (window : Option Window) : Except Stop InflateCtx :=
  let reader : BitReader := ⟨input, 0, 0, 0⟩
  inflateBlocks (loopFuel reader) ⟨reader, ⟨out, out_len, 0, window⟩, .empty, .empty⟩

/-- `(int)value` -/
def toInt32 (value : Nat) : Int :=
  let low := u32 value
  if low < 2 ^ 31 then low else (low : Int) - 2 ^ 32

/-- `inflate_raw_stream`: the returned count and the final state. -/
def inflateRawStream (input : List UInt8) (out : Nat → UInt8) (out_len : Nat) :
    Except Stop (Int × InflateCtx) := do
  let s ← inflateRaw input out out_len none
  pure (toInt32 s.sink.out_pos, s)

def zlibInflate (input : List UInt8) (out : Nat → UInt8) (out_len : Nat) : Except Stop (Int × InflateCtx) := do
  if input.length < 2 then throw errInput
  let cmf ← readAt input 0
  let flg ← readAt input 1
  if cmf &&& 0x0F ≠ 8 then throw errData
  if (7 : UInt8) < cmf >>> 4 then throw errData
  if (cmf.toNat * 256 + flg.toNat) % 31 ≠ 0 then throw errData
  if flg &&& 0x20 ≠ 0 then throw errData
  inflateRawStream (input.drop 2) out out_len

end Systrix.Inflate
