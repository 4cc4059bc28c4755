import Systrix.Image.Format
import Systrix.Inflate.Decoder
import Systrix.Libc.Checksum

/-!
# The PNG decoder

`png_decode` of `kernel/png.c`.
-/

namespace Systrix.Image

open Machine

/-! ## Scanlines -/

/-- `line[i] = b` -/
def storeByte (line : List UInt8) (i : Nat) (b : UInt8) : Except Stop (List UInt8) :=
  if i < line.length then .ok (line.set i b) else .error .outside

def paeth (a b c : Int) : Int :=
  let p := a + b - c
  let pa := if p > a then p - a else a - p
  let pb := if p > b then p - b else b - p
  let pc := if p > c then p - c else c - p
  if pa ≤ pb ∧ pa ≤ pc then a else if pb ≤ pc then b else c

/-- `(i >= (usize)bpp) ? row[i - bpp] : 0` -/
def readLeft (row : List UInt8) (bpp i : Nat) : Except Stop UInt8 := if bpp ≤ i then readByte row (i - bpp) else pure 0

/-- `prev ? prev[i] : 0` -/
def readUp (prev : Option (List UInt8)) (i : Nat) : Except Stop UInt8 :=
  match prev with
  | some prev => readByte prev i
  | none => pure 0

/-- `(prev && i >= (usize)bpp) ? prev[i - bpp] : 0` -/
def readUpLeft (prev : Option (List UInt8)) (bpp i : Nat) : Except Stop UInt8 :=
  match prev with
  | some prev => readLeft prev bpp i
  | none => pure 0

/-- `line[i] = (u8)(line[i] + value)` -/
def addByte (line : List UInt8) (i : Nat) (value : Int) : Except Stop (List UInt8) := do
  let x ← readByte line i
  storeByte line i (UInt8.ofInt (x.toNat + value))

/-- The bodies of the loops of `png_unfilter`. -/
def unfilterSub (bpp : Nat) (line : List UInt8) (i : Nat) : Except Stop (List UInt8) := do
  let a ← readByte line (i - bpp)
  addByte line i a.toNat

def unfilterUp (prev line : List UInt8) (i : Nat) : Except Stop (List UInt8) := do
  let b ← readByte prev i
  addByte line i b.toNat

def unfilterAverage (prev : Option (List UInt8)) (bpp : Nat) (line : List UInt8) (i : Nat) :
    Except Stop (List UInt8) := do
  let a ← readLeft line bpp i
  let b ← readUp prev i
  addByte line i (((a.toNat + b.toNat) >>> 1 : Nat))

def unfilterPaeth (prev : Option (List UInt8)) (bpp : Nat) (line : List UInt8) (i : Nat) :
    Except Stop (List UInt8) := do
  let a ← readLeft line bpp i
  let b ← readUp prev i
  let c ← readUpLeft prev bpp i
  addByte line i (paeth a.toNat b.toNat c.toNat)

/-- `png_unfilter`: the line after it. -/
def pngUnfilter (filter : Nat) (line : List UInt8) (prev : Option (List UInt8)) (len bpp : Nat) :
    Except Stop (List UInt8) :=
  match filter with
  | 0 => pure line
  | 1 => (List.range' bpp (len - bpp)).foldlM (unfilterSub bpp) line
  | 2 =>
      match prev with
      | some prev => (List.range len).foldlM (unfilterUp prev) line
      | none => pure line
  | 3 => (List.range len).foldlM (unfilterAverage prev bpp) line
  | 4 => (List.range len).foldlM (unfilterPaeth prev bpp) line
  | _ => throw errCorrupt

/-- The loop over the rows of a pass.  The cursor `rp` and what `put` makes of the rows are carried along; `prev` is the
row before, or zeros. -/
def rowLoop {σ : Type} (raw : List UInt8) (line_len bpp : Nat) (put : σ → Nat → List UInt8 → Except Stop σ) :
    (left py rp : Nat) → (prev : List UInt8) → σ → Except Stop (Nat × σ)
  | 0, _, rp, _, s => pure (rp, s)
  | left + 1, py, rp, prev, s => do
      if raw.length < rp + 1 + line_len then throw errTruncated
      let filter ← readByte raw rp
      let cur ← pngUnfilter filter.toNat ((raw.drop (rp + 1)).take line_len) (some prev) line_len bpp
      let s ← put s py cur
      rowLoop raw line_len bpp put left (py + 1) (rp + 1 + line_len) cur s

/-! ## Samples -/

def getSample (row : List UInt8) (i depth : Nat) : Except Stop Nat :=
  match depth with
  | 8 => do
      let b ← readByte row i
      pure b.toNat
  | 16 => do
      let high ← readByte row (i * 2)
      let low ← readByte row (i * 2 + 1)
      pure (high.toNat <<< 8 ||| low.toNat)
  | 1 => do
      let b ← readByte row (i >>> 3)
      pure (b.toNat >>> (7 - (i &&& 7)) &&& 1)
  | 2 => do
      let b ← readByte row (i >>> 2)
      pure (b.toNat >>> (6 - (i &&& 3) * 2) &&& 3)
  | 4 => do
      let b ← readByte row (i >>> 1)
      pure (b.toNat >>> (if i &&& 1 ≠ 0 then 0 else 4) &&& 0xF)
  | _ => pure 0

def scaleTo8 (v depth : Nat) : UInt8 :=
  match depth with
  | 1 => if v ≠ 0 then 0xFF else 0x00
  | 2 => UInt8.ofNat (v * 85)
  | 4 => UInt8.ofNat (v * 17)
  | 8 => UInt8.ofNat v
  | 16 => UInt8.ofNat (v >>> 8)
  | _ => UInt8.ofNat v

/-! ## Passes -/

/-- `png_hdr` -/
structure PngHeader where
  width : Nat
  height : Nat
  bit_depth : Nat
  color_type : Nat
  interlace : Nat
  channels : Nat
  bits_per_px : Nat
  filter_bpp : Nat
  deriving DecidableEq

def adam7X0 : List Nat := [0, 4, 0, 2, 0, 1, 0]

def adam7Y0 : List Nat := [0, 0, 4, 0, 2, 0, 1]

def adam7Dx : List Nat := [8, 8, 4, 4, 2, 2, 1]

def adam7Dy : List Nat := [8, 8, 8, 4, 4, 2, 2]

/-- `pw`, `ph`, `x0`, `y0`, `dx` and `dy` of a pass. -/
structure Pass where
  pw : Nat
  ph : Nat
  x0 : Nat
  y0 : Nat
  dx : Nat
  dy : Nat

/-- The passes of an interlaced image. -/
def adam7Pass (width height pass : Nat) : Pass :=
  let x0 := adam7X0.getD pass 0
  let y0 := adam7Y0.getD pass 0
  let dx := adam7Dx.getD pass 1
  let dy := adam7Dy.getD pass 1
  ⟨(width + dx - 1 - x0) / dx, (height + dy - 1 - y0) / dy, x0, y0, dx, dy⟩

/-- The passes that the loop goes through. -/
def PngHeader.passes (h : PngHeader) : List Pass :=
  if h.interlace ≠ 0 then (List.range 7).map (adam7Pass h.width h.height) else [⟨h.width, h.height, 0, 0, 1, 1⟩]

def Pass.lineLen (pass : Pass) (bits_per_px : Nat) : Nat := (pass.pw * bits_per_px + 7) / 8

def PngHeader.need (h : PngHeader) : Nat :=
  let sum_w := (h.passes.map Pass.pw).sum
  let sum_h := (h.passes.map Pass.ph).sum
  let per_row := (sum_w * h.bits_per_px + 7) / 8 + 1
  sum_h * per_row + 64

/-- `heap_malloc`: what the calls return, by their number and the size they ask for. -/
abbrev Heap := Nat → Nat → Option (Nat → UInt8)

/-- The cursor, the number of calls of `heap_malloc`, and what was made of the rows. -/
structure PassState (σ : Type) where
  rp : Nat
  calls : Nat
  out : σ

/-- The loop over the pixels of a row; `put` is its body, with the position in the image, the row, and the number of
the pixel in it. -/
def pixelLoop {σ : Type} (h : PngHeader) (pass : Pass) (put : σ → Nat → Nat → List UInt8 → Nat → Except Stop σ)
    (out : σ) (py : Nat) (cur : List UInt8) : Except Stop σ :=
  (List.range pass.pw).foldlM (fun out px =>
    let x := pass.x0 + px * pass.dx
    let y := pass.y0 + py * pass.dy
    if h.width ≤ x ∨ h.height ≤ y then pure out else put out x y cur px) out

/-- A turn of the loop over the passes. -/
def passTurn {σ : Type} (heap_malloc : Heap) (raw : List UInt8) (h : PngHeader)
    (put : σ → Nat → Nat → List UInt8 → Nat → Except Stop σ) (s : PassState σ) (pass : Pass) :
    Except Stop (PassState σ) :=
  if pass.pw = 0 ∨ pass.ph = 0 then pure s
  else
    let line_len := pass.lineLen h.bits_per_px
    if line_len = 0 then pure s
    else if (heap_malloc s.calls line_len).isNone ∨ (heap_malloc (s.calls + 1) line_len).isNone then throw errMemory
    else do
      let result ← rowLoop raw line_len h.filter_bpp (pixelLoop h pass put) pass.ph 0 s.rp
        (List.replicate line_len 0) s.out
      pure ⟨result.1, s.calls + 2, result.2⟩

/-- The loop over the passes. -/
def passLoop {σ : Type} (heap_malloc : Heap) (raw : List UInt8) (h : PngHeader)
    (put : σ → Nat → Nat → List UInt8 → Nat → Except Stop σ) (s : PassState σ) : Except Stop (PassState σ) :=
  h.passes.foldlM (passTurn heap_malloc raw h put) s

/-! ## Chunks -/

def hdrChannels (color_type : Nat) : Nat :=
  match color_type with
  | 0 => 1
  | 2 => 3
  | 3 => 1
  | 4 => 2
  | 6 => 4
  | _ => 0

/-- The depth goes with the colour type. -/
def legalDepth (color_type bit_depth : Nat) : Bool :=
  match color_type with
  | 0 => bit_depth ∈ [1, 2, 4, 8, 16]
  | 3 => bit_depth ∈ [1, 2, 4, 8]
  | 2 | 4 | 6 => bit_depth ∈ [8, 16]
  | _ => true

/-- The variables of the loop over the chunks. -/
structure PngState where
  h : PngHeader
  /-- The first `idat_len` bytes of `idat`; none is NULL. -/
  idat : Option (List UInt8)
  idat_cap : Nat
  palette : Nat → UInt8
  palette_alpha : Nat → UInt8
  have_palette : Bool
  have_palpha : Bool
  trns_key : List Nat
  trns_key_valid : Bool
  have_trns : Bool
  got_ihdr : Bool
  calls : Nat

def pngCrc (bytes : List UInt8) : Nat :=
  (bytes.foldl (Libc.crc32Byte Libc.crc32Tab) 0xFFFFFFFF#32 ^^^ 0xFFFFFFFF#32).toNat

/-- The IHDR chunk. -/
def pngIhdr (cdata : List UInt8) (s : PngState) : Except Stop PngState :=
  if cdata.length < 13 then throw errCorrupt
  else do
    let width ← be32 cdata 0
    let height ← be32 cdata 4
    let bit_depth ← readByte cdata 8
    let color_type ← readByte cdata 9
    let compression ← readByte cdata 10
    let filter ← readByte cdata 11
    let interlace ← readByte cdata 12
    let channels := hdrChannels color_type.toNat
    if compression ≠ 0 then throw errUnsupported
    else if filter ≠ 0 then throw errUnsupported
    else if channels = 0 then throw errFormat
    else if 1 < interlace.toNat then throw errUnsupported
    else if width = 0 ∨ height = 0 then throw errCorrupt
    else if imgMaxDim < width ∨ imgMaxDim < height then throw errTooBig
    else if imgMaxPixels < width * height then throw errTooBig
    else if legalDepth color_type.toNat bit_depth.toNat = false then throw errFormat
    else
      let bits_per_px := channels * bit_depth.toNat
      let filter_bpp := if (bits_per_px + 7) / 8 < 1 then 1 else (bits_per_px + 7) / 8
      pure { s with
        h := ⟨width, height, bit_depth.toNat, color_type.toNat, interlace.toNat, channels, bits_per_px, filter_bpp⟩
        got_ihdr := true }

/-- The PLTE chunk. -/
def pngPlte (cdata : List UInt8) (s : PngState) : Except Stop PngState :=
  if cdata.length % 3 ≠ 0 ∨ 768 < cdata.length then throw errCorrupt
  else
    pure { s with
      palette := fun i => if i < cdata.length then cdata.getD i 0 else s.palette i
      have_palette := true }

/-- `((u32)cdata[i] << 8) | cdata[i + 1]` -/
def keySample (cdata : List UInt8) (i : Nat) : Except Stop Nat := do
  let high ← readByte cdata i
  let low ← readByte cdata (i + 1)
  return high.toNat <<< 8 ||| low.toNat

/-- The tRNS chunk. -/
def pngTrns (cdata : List UInt8) (s : PngState) : Except Stop PngState :=
  if s.h.color_type = 3 then
    if 256 < cdata.length then throw errCorrupt
    else
      pure { s with
        palette_alpha := fun i => if i < cdata.length then cdata.getD i 0 else 0xFF
        have_palpha := true
        have_trns := true }
  else if s.h.color_type = 0 ∧ 2 ≤ cdata.length then do
    let key ← keySample cdata 0
    pure { s with trns_key := [key, key, s.trns_key.getD 2 0], trns_key_valid := true, have_trns := true }
  else if s.h.color_type = 2 ∧ 6 ≤ cdata.length then do
    let r ← keySample cdata 0
    let g ← keySample cdata 2
    let b ← keySample cdata 4
    pure { s with trns_key := [r, g, b], trns_key_valid := true, have_trns := true }
  else pure s

/-- `while (nc < idat_len + clen) nc *= 2;` -/
def growCap (need : Nat) : (turns nc : Nat) → Nat
  | 0, nc => nc
  | turns + 1, nc => if nc < need then growCap need turns (nc * 2) else nc

/-- The IDAT chunk.  The results of `heap_malloc` are not looked at, and the copy to NULL is an access outside. -/
def pngIdat (heap_malloc : Heap) (cdata : List UInt8) (s : PngState) : Except Stop PngState :=
  let clen := cdata.length
  match s.idat with
  | none =>
      let cap := u32 (clen * 2 + 1024)
      match heap_malloc s.calls cap with
      | some _ =>
          if cap < clen then throw .outside
          else pure { s with idat := some cdata, idat_cap := cap, calls := s.calls + 1 }
      | none => if clen = 0 then pure { s with idat_cap := cap, calls := s.calls + 1 } else throw .outside
  | some idat =>
      let need := idat.length + clen
      if s.idat_cap < need then
        let nc := growCap need need (s.idat_cap * 2)
        match heap_malloc s.calls nc with
        | some _ =>
            if nc < need then throw .outside
            else pure { s with idat := some (idat ++ cdata), idat_cap := nc, calls := s.calls + 1 }
        | none => throw .outside
      else pure { s with idat := some (idat ++ cdata) }

/-- The four letters of a chunk type. -/
def chunkName (name : String) : List UInt8 := name.toUTF8.toList

/-- A chunk that is not the last one. -/
def pngChunk (heap_malloc : Heap) (ctype cdata : List UInt8) (s : PngState) : Except Stop PngState :=
  if ctype = chunkName "IHDR" then pngIhdr cdata s
  else if ctype = chunkName "PLTE" then pngPlte cdata s
  else if ctype = chunkName "tRNS" then pngTrns cdata s
  else if ctype = chunkName "IDAT" then pngIdat heap_malloc cdata s
  else pure s

/-- The loop over the chunks; each turn takes at least twelve bytes. -/
def chunkLoop (heap_malloc : Heap) (d : List UInt8) : (turns pos : Nat) → PngState → Except Stop PngState
  | 0, _, s => pure s
  | turns + 1, pos, s =>
      if d.length < pos + 8 then pure s
      else do
        let clen ← be32 d pos
        let ctype := (d.drop (pos + 4)).take 4
        let cdata := (d.drop (pos + 8)).take clen
        if 0x7FFFFFFF < clen then throw errCorrupt
        else if d.length < pos + 12 + clen then throw errTruncated
        else do
          let crc ← be32 d (pos + 8 + clen)
          if pngCrc (ctype ++ cdata) ≠ crc then throw errCorrupt
          else if ctype = chunkName "IEND" then pure s
          else do
            let s ← pngChunk heap_malloc ctype cdata s
            chunkLoop heap_malloc d turns (pos + 12 + clen) s

/-! ## The decoder -/

def PngState.outCh (s : PngState) : Nat :=
  match s.h.color_type with
  | 0 => 3
  | 2 => 3
  | 3 => if s.have_palpha then 4 else 3
  | 4 => 4
  | _ => 4

/-- Bytes are stored one after the other. -/
def storeBytes (out_len : Nat) (pixels : Nat → UInt8) (i : Nat) : List UInt8 → Except Stop (Nat → UInt8)
  | [] => pure pixels
  | b :: bytes => do
      let pixels ← writeByte out_len pixels i b
      storeBytes out_len pixels (i + 1) bytes

/-- `palette[i]` and `palette_alpha[i]` -/
def readPalette (palette : Nat → UInt8) (size i : Nat) : Except Stop UInt8 :=
  if i < size then pure (palette i) else throw .outside

/-- What the body of the loop over the pixels stores at the place of a pixel. -/
def pixelBytes (s : PngState) (cur : List UInt8) (px : Nat) : Except Stop (List UInt8) :=
  let depth := s.h.bit_depth
  match s.h.color_type with
  | 3 => do
      let pi ← getSample cur px depth
      if 255 < pi then pure []
      else do
        let r ← readPalette s.palette 768 (pi * 3)
        let g ← readPalette s.palette 768 (pi * 3 + 1)
        let b ← readPalette s.palette 768 (pi * 3 + 2)
        if s.outCh = 4 then
          let a ← if s.have_palpha then readPalette s.palette_alpha 256 pi else pure 0xFF
          pure [r, g, b, a]
        else pure [r, g, b]
  | 0 => do
      let g ← getSample cur px depth
      let v := scaleTo8 g depth
      let g16 := if depth = 16 then g else v.toNat
      let transparent := s.have_trns && s.trns_key_valid && g16 == s.trns_key.getD 0 0
      let shown := if transparent then 0 else v
      pure [shown, shown, shown]
  | 4 => do
      let g ← getSample cur (px * 2) depth
      let a ← getSample cur (px * 2 + 1) depth
      let v := scaleTo8 g depth
      pure [v, v, v, scaleTo8 a depth]
  | 6 => do
      let r ← getSample cur (px * 4) depth
      let g ← getSample cur (px * 4 + 1) depth
      let b ← getSample cur (px * 4 + 2) depth
      let a ← getSample cur (px * 4 + 3) depth
      pure [scaleTo8 r depth, scaleTo8 g depth, scaleTo8 b depth, scaleTo8 a depth]
  | _ => do
      let r ← getSample cur (px * 3) depth
      let g ← getSample cur (px * 3 + 1) depth
      let b ← getSample cur (px * 3 + 2) depth
      let key (c : Nat) := if depth = 16 then s.trns_key.getD c 0 else s.trns_key.getD c 0 >>> 8
      if s.have_trns && s.trns_key_valid && (scaleTo8 r depth).toNat == key 0 && (scaleTo8 g depth).toNat == key 1 &&
          (scaleTo8 b depth).toNat == key 2 then pure [0, 0, 0]
      else pure [scaleTo8 r depth, scaleTo8 g depth, scaleTo8 b depth]

/-- The body of the loop over the pixels. -/
def plotPixel (s : PngState) (out_len : Nat) (pixels : Nat → UInt8) (x y : Nat) (cur : List UInt8) (px : Nat) :
    Except Stop (Nat → UInt8) := do
  let bytes ← pixelBytes s cur px
  storeBytes out_len pixels ((y * s.h.width + x) * s.outCh) bytes

/-- `zlib_inflate` into `raw`, and the bytes that it has stored there. -/
def inflateIdat (idat : List UInt8) (raw : Nat → UInt8) (max_raw : Nat) : Except Stop (List UInt8) :=
  match Inflate.zlibInflate idat raw max_raw with
  | .error (.failed code) => throw (if code = -2 then errMemory else errCorrupt)
  | .error _ => throw .outside
  | .ok (got, ctx) =>
      if got < 0 then throw (if got = -2 then errMemory else errCorrupt)
      else pure ((List.range got.toNat).map ctx.sink.out)

/-- What follows the loop over the chunks: the buffers are allocated, and the passes are gone through. -/
def pngPixels (heap_malloc : Heap) (s : PngState) (idat : List UInt8) : Except Stop Picture :=
  let out_len := s.h.width * s.h.height * s.outCh
  match heap_malloc s.calls out_len with
  | none => throw errMemory
  | some _ =>
      if 128 * 1024 * 1024 < s.h.need then throw errTooBig
      else
        match heap_malloc (s.calls + 1) s.h.need with
        | none => throw errMemory
        | some raw => do
            let raw ← inflateIdat idat raw s.h.need
            let done ← passLoop heap_malloc raw s.h (plotPixel s out_len) ⟨0, s.calls + 2, fun _ => 0xFF⟩
            pure ⟨s.h.width, s.h.height, s.outCh, s.outCh = 4, done.out, out_len, u32 (s.h.width * s.outCh)⟩

/-- The checks behind the loop over the chunks. -/
def pngImage (heap_malloc : Heap) (s : PngState) : Except Stop Picture :=
  if s.got_ihdr = false then throw errTruncated
  else
    match s.idat with
    | none => throw errTruncated
    | some idat =>
        if idat.length = 0 then throw errTruncated
        else if s.h.color_type = 3 ∧ s.have_palette = false then throw errCorrupt
        else pngPixels heap_malloc s idat

/-- What the variables hold before the first chunk; `palette` and `palette_alpha` are not initialised. -/
def pngStart (palette palette_alpha : Nat → UInt8) : PngState :=
  ⟨⟨0, 0, 8, 6, 0, 0, 0, 0⟩, none, 0, palette, palette_alpha, false, false, [0, 0, 0], false, false, false, 0⟩

def pngDecode (heap_malloc : Heap) (palette palette_alpha : Nat → UInt8) (d : List UInt8) : Except Stop Picture :=
  if d.length < 8 then throw errTruncated
  else do
    let s ← chunkLoop heap_malloc d d.length 8 (pngStart palette palette_alpha)
    pngImage heap_malloc s

end Systrix.Image
