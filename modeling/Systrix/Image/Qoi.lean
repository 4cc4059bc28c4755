import Systrix.Image.Format

/-!
# The QOI decoder

`qoi_decode` of `kernel/tga_pcx_qoi.c`.
-/

namespace Systrix.Image

/-- A pixel of four channels. -/
structure Pixel where
  r : UInt8
  g : UInt8
  b : UInt8
  a : UInt8
  deriving DecidableEq, Repr

/-- `index`, `px_prev`, `cur`, `run` and `p`. -/
structure QoiState where
  index : Nat → Pixel
  px_prev : Pixel
  cur : Pixel
  run : Nat
  p : Nat

/-- `hash` -/
def qoiHash (c : Pixel) : Nat := (c.r.toNat * 3 + c.g.toNat * 5 + c.b.toNat * 7 + c.a.toNat * 11) % 64

/-- `memcpy(cur, index[i], 4)` -/
def readIndex (index : Nat → Pixel) (i : Nat) : Except Stop Pixel :=
  if i < 64 then .ok (index i) else .error .outside

/-- `memcpy(index[i], cur, 4)` -/
def writeIndex (index : Nat → Pixel) (i : Nat) (cur : Pixel) : Except Stop (Nat → Pixel) :=
  if i < 64 then .ok (Function.update index i cur) else .error .outside

/-- One chunk, from behind its first byte. -/
def qoiOp (d : List UInt8) (b1 : UInt8) (s : QoiState) : Except Stop QoiState :=
  if b1 = 0xFE then
    if d.length < s.p + 3 then throw errTruncated
    else do
      let r ← readByte d s.p
      let g ← readByte d (s.p + 1)
      let b ← readByte d (s.p + 2)
      pure { s with cur := ⟨r, g, b, s.cur.a⟩, p := s.p + 3 }
  else if b1 = 0xFF then
    if d.length < s.p + 4 then throw errTruncated
    else do
      let r ← readByte d s.p
      let g ← readByte d (s.p + 1)
      let b ← readByte d (s.p + 2)
      let a ← readByte d (s.p + 3)
      pure { s with cur := ⟨r, g, b, a⟩, p := s.p + 4 }
  else if b1 &&& 0xC0 = 0x00 then do
    let cur ← readIndex s.index (b1 &&& 0x3F).toNat
    pure { s with cur := cur }
  else if b1 &&& 0xC0 = 0x40 then
    let cur : Pixel :=
      ⟨s.cur.r + (b1 >>> 4 &&& 0x03) - (2 : UInt8), s.cur.g + (b1 >>> 2 &&& 0x03) - (2 : UInt8),
        s.cur.b + (b1 &&& 0x03) - (2 : UInt8), s.cur.a⟩
    pure { s with cur := cur }
  else if b1 &&& 0xC0 = 0x80 then
    if d.length ≤ s.p then throw errTruncated
    else do
      let b2 ← readByte d s.p
      let vg : UInt8 := (b1 &&& 0x3F) - 32
      let cur : Pixel :=
        ⟨s.cur.r + vg - (8 : UInt8) + (b2 >>> 4 &&& 0x0F), s.cur.g + vg,
          s.cur.b + vg - (8 : UInt8) + (b2 &&& 0x0F), s.cur.a⟩
      pure { s with cur := cur, p := s.p + 1 }
  else pure { s with run := (b1 &&& 0x3F).toNat }

/-- The next pixel: the rest of a run, or a chunk. -/
def qoiNext (d : List UInt8) (s : QoiState) : Except Stop QoiState :=
  if 0 < s.run then pure { s with run := s.run - 1 }
  else if d.length ≤ s.p then throw errTruncated
  else do
    let b1 ← readByte d s.p
    let s ← qoiOp d b1 { s with p := s.p + 1 }
    let index ← writeIndex s.index (qoiHash s.cur) s.cur
    pure { s with index := index }

/-- `memcpy(px + (usize)count * 4, cur, 4);` -/
def storePixel (out_len : Nat) (px : Nat → UInt8) (count : Nat) (cur : Pixel) : Except Stop (Nat → UInt8) := do
  let px ← writeByte out_len px (count * 4) cur.r
  let px ← writeByte out_len px (count * 4 + 1) cur.g
  let px ← writeByte out_len px (count * 4 + 2) cur.b
  writeByte out_len px (count * 4 + 3) cur.a

/-- `while (count < total)`, with the number of pixels that are left. -/
def qoiLoop (d : List UInt8) (out_len : Nat) :
    (left : Nat) → (count : Nat) → (px : Nat → UInt8) → QoiState → Except Stop (Nat → UInt8)
  | 0, _, px, _ => pure px
  | left + 1, count, px, s => do
      let s ← qoiNext d s
      let px ← storePixel out_len px count s.cur
      let s := if s.cur = s.px_prev then s else { s with px_prev := s.cur }
      qoiLoop d out_len left (count + 1) px s

/-- The state before the first pixel. -/
def qoiStart : QoiState := ⟨fun _ => ⟨0, 0, 0, 0⟩, ⟨0, 0, 0, 255⟩, ⟨0, 0, 0, 255⟩, 0, 14⟩

def qoiDecode (heap_malloc : Nat → Option (Nat → UInt8)) (d : List UInt8) : Except Stop Picture := do
  if d.length < 14 then throw errTruncated
  let q ← readByte d 0
  let o ← readByte d 1
  let i ← readByte d 2
  let f ← readByte d 3
  if q ≠ 'q'.toUInt8 ∨ o ≠ 'o'.toUInt8 ∨ i ≠ 'i'.toUInt8 ∨ f ≠ 'f'.toUInt8 then throw errFormat
  let w ← be32 d 4
  let h ← be32 d 8
  let channels ← readByte d 12
  if w = 0 ∨ h = 0 then throw errCorrupt
  if imgMaxDim < w ∨ imgMaxDim < h then throw errTooBig
  if imgMaxPixels < w * h then throw errTooBig
  if channels ≠ 3 ∧ channels ≠ 4 then throw errFormat
  let out_len := w * h * 4
  match heap_malloc out_len with
  | none => throw errMemory
  | some px => do
      let px ← qoiLoop d out_len (w * h) 0 px qoiStart
      pure ⟨w, h, 4, true, px, out_len, w * 4⟩

end Systrix.Image

/-!
## What the QOI decoder reads

The chunks of the format, with every choice an encoder has, and the decoder on them.
-/

namespace Systrix.Image

open Fallible

/-! ## The format -/

/-- The first byte of a run of `n + 1` pixels. -/
def runByte (n : Fin 62) : UInt8 := UInt8.ofNat (0xC0 + n)

/-- A place of the table. -/
def indexByte (i : Fin 64) : UInt8 := UInt8.ofNat i

/-- Small differences, 2 added to each. -/
def diffByte (dr dg db : Fin 4) : UInt8 := UInt8.ofNat (0x40 + dr * 16 + dg * 4 + db)

/-- A difference of green, with 32 added to it. -/
def lumaByte (dg : Fin 64) : UInt8 := UInt8.ofNat (0x80 + dg)

/-- What the other differences differ by from that of green, 8 added to each. -/
def lumaByte' (dr db : Fin 16) : UInt8 := UInt8.ofNat (dr * 16 + db)

/-- A pixel with other colours and the same opacity. -/
def Pixel.moved (c : Pixel) (r g b : UInt8) : Pixel := ⟨c.r + r, c.g + g, c.b + b, c.a⟩

/-- The table after a pixel was seen. -/
def remember (seen : Nat → Pixel) (c : Pixel) : Nat → Pixel := Function.update seen (qoiHash c) c

/-- Chunks for some pixels, given the pixel before them and the table of pixels seen.  Any chunk that stands for the
next pixels may be chosen.  The pixel of a run counts as seen, also the one a file starts with. -/
inductive Chunks : Pixel → (Nat → Pixel) → List Pixel → List UInt8 → Prop where
  | done {prev : Pixel} {seen : Nat → Pixel} : Chunks prev seen [] []
  | run {prev : Pixel} {seen : Nat → Pixel} {pixels : List Pixel} {bytes : List UInt8} (n : Fin 62)
      (rest : Chunks prev (remember seen prev) pixels bytes) :
      Chunks prev seen (List.replicate (n + 1) prev ++ pixels) (runByte n :: bytes)
  | index {prev : Pixel} {seen : Nat → Pixel} {pixels : List Pixel} {bytes : List UInt8} (i : Fin 64)
      (rest : Chunks (seen i) (remember seen (seen i)) pixels bytes) :
      Chunks prev seen (seen i :: pixels) (indexByte i :: bytes)
  | diff {prev c : Pixel} {seen : Nat → Pixel} {pixels : List Pixel} {bytes : List UInt8} (dr dg db : Fin 4)
      (moved : c = prev.moved (UInt8.ofNat dr - 2) (UInt8.ofNat dg - 2) (UInt8.ofNat db - 2))
      (rest : Chunks c (remember seen c) pixels bytes) :
      Chunks prev seen (c :: pixels) (diffByte dr dg db :: bytes)
  | luma {prev c : Pixel} {seen : Nat → Pixel} {pixels : List Pixel} {bytes : List UInt8} (dg : Fin 64)
      (dr db : Fin 16)
      (moved : c = prev.moved ((UInt8.ofNat dg - 32) + (UInt8.ofNat dr - 8)) (UInt8.ofNat dg - 32)
        ((UInt8.ofNat dg - 32) + (UInt8.ofNat db - 8)))
      (rest : Chunks c (remember seen c) pixels bytes) :
      Chunks prev seen (c :: pixels) (lumaByte dg :: lumaByte' dr db :: bytes)
  | rgb {prev c : Pixel} {seen : Nat → Pixel} {pixels : List Pixel} {bytes : List UInt8} (same : c.a = prev.a)
      (rest : Chunks c (remember seen c) pixels bytes) :
      Chunks prev seen (c :: pixels) (0xFE :: c.r :: c.g :: c.b :: bytes)
  | rgba {prev c : Pixel} {seen : Nat → Pixel} {pixels : List Pixel} {bytes : List UInt8}
      (rest : Chunks c (remember seen c) pixels bytes) :
      Chunks prev seen (c :: pixels) (0xFF :: c.r :: c.g :: c.b :: c.a :: bytes)

/-- The bytes of a number, the high one first. -/
def be32Bytes (n : Nat) : List UInt8 :=
  [UInt8.ofNat (n / 0x1000000), UInt8.ofNat (n / 0x10000), UInt8.ofNat (n / 0x100), UInt8.ofNat n]

/-- A file: the header, the chunks and what stands behind them. -/
def qoiFile (w h : Nat) (channels colorspace : UInt8) (bytes tail : List UInt8) : List UInt8 :=
  ['q'.toUInt8, 'o'.toUInt8, 'i'.toUInt8, 'f'.toUInt8] ++ be32Bytes w ++ be32Bytes h ++ [channels, colorspace] ++
    (bytes ++ tail)

/-! ## Bytes of chunks -/

theorem index_bits : ∀ i : Fin 64, indexByte i ≠ 0xFE ∧ indexByte i ≠ 0xFF ∧ indexByte i &&& 0xC0 = 0x00 ∧
    (indexByte i &&& 0x3F).toNat = i := by decide +kernel

theorem diff_bits : ∀ dr dg db : Fin 4, diffByte dr dg db ≠ 0xFE ∧ diffByte dr dg db ≠ 0xFF ∧
    diffByte dr dg db &&& 0xC0 ≠ 0x00 ∧ diffByte dr dg db &&& 0xC0 = 0x40 ∧
    diffByte dr dg db >>> 4 &&& 0x03 = UInt8.ofNat dr ∧ diffByte dr dg db >>> 2 &&& 0x03 = UInt8.ofNat dg ∧
    diffByte dr dg db &&& 0x03 = UInt8.ofNat db := by decide +kernel

theorem luma_bits : ∀ dg : Fin 64, lumaByte dg ≠ 0xFE ∧ lumaByte dg ≠ 0xFF ∧ lumaByte dg &&& 0xC0 ≠ 0x00 ∧
    lumaByte dg &&& 0xC0 ≠ 0x40 ∧ lumaByte dg &&& 0xC0 = 0x80 ∧ lumaByte dg &&& 0x3F = UInt8.ofNat dg := by
  decide +kernel

theorem luma_bits' : ∀ dr db : Fin 16, lumaByte' dr db >>> 4 &&& 0x0F = UInt8.ofNat dr ∧
    lumaByte' dr db &&& 0x0F = UInt8.ofNat db := by decide +kernel

theorem run_bits : ∀ n : Fin 62, runByte n ≠ 0xFE ∧ runByte n ≠ 0xFF ∧ runByte n &&& 0xC0 ≠ 0x00 ∧
    runByte n &&& 0xC0 ≠ 0x40 ∧ runByte n &&& 0xC0 ≠ 0x80 ∧ (runByte n &&& 0x3F).toNat = n := by decide +kernel

/-! ## One chunk -/

section chunks

variable {d rest : List UInt8} {p : Nat} {b : UInt8} {s : QoiState}

theorem read_drop (ahead : d.drop p = b :: rest) : readByte d p = .ok b ∧ d.drop (p + 1) = rest ∧ p < d.length := by
  have found : d[p]? = some b := by
    have head := congrArg List.head? ahead
    rwa [List.head?_drop] at head
  have others := congrArg List.tail ahead
  rw [List.tail_drop] at others
  exact ⟨readByte_eq found, others, (List.getElem?_eq_some_iff.mp found).1⟩

theorem qoiHash_lt (c : Pixel) : qoiHash c < 64 := Nat.mod_lt _ (by decide)

/-- A chunk without a run. -/
theorem qoiNext_chunk {first : UInt8} {s' : QoiState} (idle : s.run = 0) (ahead : d.drop s.p = first :: rest)
    (op : qoiOp d first { s with p := s.p + 1 } = .ok s') :
    qoiNext d s = .ok { s' with index := remember s'.index s'.cur } := by
  obtain ⟨read, -, inside⟩ := read_drop ahead
  rw [qoiNext, if_neg (by rw [idle]; exact Nat.lt_irrefl 0), if_neg (Nat.not_le_of_lt inside), read, ok_bind, op,
    ok_bind, writeIndex, if_pos (qoiHash_lt _)]
  rfl

theorem qoiOp_index (i : Fin 64) : qoiOp d (indexByte i) s = .ok { s with cur := s.index i } := by
  obtain ⟨noRgb, noRgba, tag, value⟩ := index_bits i
  rw [qoiOp, if_neg noRgb, if_neg noRgba, if_pos tag, value, readIndex, if_pos i.isLt]
  rfl

theorem add_biased (c d bias : UInt8) : c + d - bias = c + (d - bias) := by
  rw [UInt8.sub_eq_add_neg, UInt8.sub_eq_add_neg, UInt8.add_assoc]

theorem add_biased' (c v d bias : UInt8) : c + v - bias + d = c + (v + (d - bias)) := by
  rw [UInt8.sub_eq_add_neg, UInt8.sub_eq_add_neg, UInt8.add_assoc, UInt8.add_assoc, UInt8.add_comm d]

theorem qoiOp_diff (dr dg db : Fin 4) : qoiOp d (diffByte dr dg db) s =
    .ok { s with cur := s.cur.moved (UInt8.ofNat dr - 2) (UInt8.ofNat dg - 2) (UInt8.ofNat db - 2) } := by
  obtain ⟨noRgb, noRgba, noIndex, tag, red, green, blue⟩ := diff_bits dr dg db
  rw [qoiOp, if_neg noRgb, if_neg noRgba, if_neg noIndex, if_pos tag, red, green, blue, Pixel.moved,
    ← add_biased, ← add_biased, ← add_biased]
  rfl

theorem qoiOp_luma (dg : Fin 64) (dr db : Fin 16) (ahead : d.drop s.p = lumaByte' dr db :: rest) :
    qoiOp d (lumaByte dg) s = .ok { s with
      cur := s.cur.moved ((UInt8.ofNat dg - 32) + (UInt8.ofNat dr - 8)) (UInt8.ofNat dg - 32)
        ((UInt8.ofNat dg - 32) + (UInt8.ofNat db - 8)), p := s.p + 1 } := by
  obtain ⟨noRgb, noRgba, noIndex, noDiff, tag, green⟩ := luma_bits dg
  obtain ⟨red, blue⟩ := luma_bits' dr db
  obtain ⟨read, -, inside⟩ := read_drop ahead
  rw [qoiOp, if_neg noRgb, if_neg noRgba, if_neg noIndex, if_neg noDiff, if_pos tag, if_neg (Nat.not_le_of_lt inside),
    read, ok_bind, green, red, blue, Pixel.moved, ← add_biased', ← add_biased']
  rfl

theorem qoiOp_run (n : Fin 62) : qoiOp d (runByte n) s = .ok { s with run := n } := by
  obtain ⟨noRgb, noRgba, noIndex, noDiff, noLuma, value⟩ := run_bits n
  rw [qoiOp, if_neg noRgb, if_neg noRgba, if_neg noIndex, if_neg noDiff, if_neg noLuma, value]
  rfl

theorem qoiOp_rgb {r g : UInt8} (ahead : d.drop s.p = r :: g :: b :: rest) :
    qoiOp d 0xFE s = .ok { s with cur := ⟨r, g, b, s.cur.a⟩, p := s.p + 3 } := by
  obtain ⟨red, ahead', -⟩ := read_drop ahead
  obtain ⟨green, ahead'', -⟩ := read_drop ahead'
  obtain ⟨blue, -, inside⟩ := read_drop ahead''
  rw [qoiOp, if_pos rfl, if_neg (Nat.not_lt_of_le inside), red, ok_bind, green, ok_bind, blue, ok_bind]
  rfl

theorem qoiOp_rgba {r g a : UInt8} (ahead : d.drop s.p = r :: g :: b :: a :: rest) :
    qoiOp d 0xFF s = .ok { s with cur := ⟨r, g, b, a⟩, p := s.p + 4 } := by
  obtain ⟨red, ahead', -⟩ := read_drop ahead
  obtain ⟨green, ahead'', -⟩ := read_drop ahead'
  obtain ⟨blue, ahead''', -⟩ := read_drop ahead''
  obtain ⟨opacity, -, inside⟩ := read_drop ahead'''
  rw [qoiOp, if_neg (by decide), if_pos rfl, if_neg (Nat.not_lt_of_le inside), red, ok_bind, green, ok_bind, blue,
    ok_bind, opacity, ok_bind]
  rfl

end chunks

/-! ## All chunks -/

/-- A pixel in the output. -/
def pixelAt (px : Nat → UInt8) (i : Nat) : Pixel := ⟨px (i * 4), px (i * 4 + 1), px (i * 4 + 2), px (i * 4 + 3)⟩

/-- The output with a pixel. -/
def putPixel (px : Nat → UInt8) (i : Nat) (c : Pixel) : Nat → UInt8 :=
  Function.update (Function.update (Function.update (Function.update px (i * 4) c.r) (i * 4 + 1) c.g) (i * 4 + 2) c.b)
    (i * 4 + 3) c.a

/-- The output with pixels from `count` on. -/
def putPixels (px : Nat → UInt8) : (count : Nat) → List Pixel → (Nat → UInt8)
  | _, [] => px
  | count, c :: pixels => putPixels (putPixel px count c) (count + 1) pixels

section output

variable {px : Nat → UInt8} {count out_len i : Nat} {c : Pixel} {pixels : List Pixel}

theorem storePixel_eq (room : count * 4 + 4 ≤ out_len) : storePixel out_len px count c = .ok (putPixel px count c) := by
  rw [storePixel, writeByte, if_pos (by omega), ok_bind, writeByte, if_pos (by omega), ok_bind, writeByte,
    if_pos (by omega), ok_bind, writeByte, if_pos (by omega)]
  rfl

theorem pixelAt_putPixel : pixelAt (putPixel px i c) i = c := by
  unfold pixelAt putPixel
  rw [Function.update_of_ne (by omega), Function.update_of_ne (by omega), Function.update_of_ne (by omega),
    Function.update_self, Function.update_of_ne (by omega), Function.update_of_ne (by omega), Function.update_self,
    Function.update_of_ne (by omega), Function.update_self, Function.update_self]

theorem putPixel_apart {j : Nat} (apart : j / 4 ≠ i) : putPixel px i c j = px j := by
  unfold putPixel
  rw [Function.update_of_ne (by omega), Function.update_of_ne (by omega), Function.update_of_ne (by omega),
    Function.update_of_ne (by omega)]

theorem pixelAt_putPixel_of_ne {j : Nat} (ne : j ≠ i) : pixelAt (putPixel px i c) j = pixelAt px j := by
  unfold pixelAt
  rw [putPixel_apart (by omega), putPixel_apart (by omega), putPixel_apart (by omega), putPixel_apart (by omega)]

theorem pixelAt_putPixels_of_lt (before : i < count) : pixelAt (putPixels px count pixels) i = pixelAt px i := by
  induction pixels generalizing px count with
  | nil => rfl
  | cons c pixels ih =>
      rw [putPixels, ih (Nat.lt_succ_of_lt before), pixelAt_putPixel_of_ne (Nat.ne_of_lt before)]

/-- The pixels are in the output one after the other. -/
theorem pixelAt_putPixels (px : Nat → UInt8) (count : Nat) (inside : pixels[i]? = some c) :
    pixelAt (putPixels px count pixels) (count + i) = c := by
  induction pixels generalizing px count i with
  | nil => cases inside
  | cons first pixels ih =>
      cases i with
      | zero =>
          cases inside
          have here : count < count + 1 := Nat.lt_succ_self count
          change pixelAt (putPixels (putPixel px count c) (count + 1) pixels) count = c
          rw [pixelAt_putPixels_of_lt here, pixelAt_putPixel]
      | succ i =>
          rw [List.getElem?_cons_succ] at inside
          rw [putPixels, ← Nat.add_assoc, Nat.add_right_comm]
          exact ih _ _ inside

end output

section loop

variable {d tail : List UInt8} {out_len count : Nat} {px : Nat → UInt8} {s : QoiState}

/-- A round of the loop; what is kept in `px_prev` has no effect. -/
theorem qoiLoop_next {s' : QoiState} (left count : Nat) (px : Nat → UInt8) (next : qoiNext d s = .ok s')
    (room : count * 4 + 4 ≤ out_len) :
    ∃ px_prev, qoiLoop d out_len (left + 1) count px s =
      qoiLoop d out_len left (count + 1) (putPixel px count s'.cur) { s' with px_prev := px_prev } := by
  rw [qoiLoop, next, ok_bind, storePixel_eq room, ok_bind]
  dsimp only
  by_cases same : s'.cur = s'.px_prev
  · rw [if_pos same]
    exact ⟨s'.px_prev, rfl⟩
  · rw [if_neg same]
    exact ⟨s'.cur, rfl⟩

/-- The pixels that are left of a run. -/
theorem qoiLoop_run (d : List UInt8) (left k count : Nat) (px : Nat → UInt8) (running : s.run = k)
    (room : (count + k) * 4 ≤ out_len) :
    ∃ px_prev, qoiLoop d out_len (k + left) count px s =
      qoiLoop d out_len left (count + k) (putPixels px count (List.replicate k s.cur))
        { s with run := 0, px_prev := px_prev } := by
  induction k generalizing s count px with
  | zero =>
      have same : { s with run := 0, px_prev := s.px_prev } = s := by
        cases s
        cases running
        rfl
      exact ⟨s.px_prev, by rw [same, Nat.zero_add]; rfl⟩
  | succ k ih =>
      have next : qoiNext d s = .ok { s with run := k } := by
        rw [qoiNext, running, if_pos (Nat.succ_pos k)]
        rfl
      have rounds : k + 1 + left = (k + left) + 1 := by omega
      have places : count + (k + 1) = count + 1 + k := by omega
      have here : count * 4 + 4 ≤ out_len := by omega
      obtain ⟨px_prev, first⟩ := qoiLoop_next (k + left) count px next here
      obtain ⟨px_prev', rest⟩ := ih (s := { s with run := k, px_prev := px_prev }) (count + 1)
        (putPixel px count s.cur) rfl (by omega)
      refine ⟨px_prev', ?_⟩
      rw [rounds, first, places]
      exact rest

/-- A chunk for one pixel. -/
theorem qoiLoop_chunk {c : Pixel} {pixels : List Pixel} {first : UInt8} {rest : List UInt8} {p : Nat}
    (idle : s.run = 0) (ahead : d.drop s.p = first :: rest)
    (op : qoiOp d first { s with p := s.p + 1 } = .ok { s with cur := c, p := p })
    (room : (count + (c :: pixels).length) * 4 ≤ out_len)
    (later : ∀ s' px, s'.run = 0 → s'.cur = c → s'.index = remember s.index c → s'.p = p →
      qoiLoop d out_len pixels.length (count + 1) px s' = .ok (putPixels px (count + 1) pixels)) :
    qoiLoop d out_len (c :: pixels).length count px s = .ok (putPixels px count (c :: pixels)) := by
  rw [List.length_cons] at room
  have next := qoiNext_chunk idle ahead op
  have here : count * 4 + 4 ≤ out_len := by omega
  obtain ⟨px_prev, round⟩ := qoiLoop_next pixels.length count px next here
  rw [List.length_cons, round]
  exact later _ _ idle rfl rfl rfl

theorem putPixels_append (px : Nat → UInt8) (count : Nat) (pixels pixels' : List Pixel) :
    putPixels px count (pixels ++ pixels') = putPixels (putPixels px count pixels) (count + pixels.length) pixels' := by
  induction pixels generalizing px count with
  | nil => rfl
  | cons c pixels ih =>
      have places : count + (pixels.length + 1) = count + 1 + pixels.length := by omega
      rw [List.cons_append, putPixels, ih, List.length_cons, places]
      rfl

/-- A run: the pixel its first byte stands for, and those that are left. -/
theorem qoiLoop_runByte {pixels : List Pixel} {rest : List UInt8} (n : Fin 62) (idle : s.run = 0)
    (ahead : d.drop s.p = runByte n :: rest)
    (room : (count + (List.replicate (n + 1) s.cur ++ pixels).length) * 4 ≤ out_len)
    (later : ∀ s' px, s'.run = 0 → s'.cur = s.cur → s'.index = remember s.index s.cur → s'.p = s.p + 1 →
      qoiLoop d out_len pixels.length (count + (n + 1)) px s' = .ok (putPixels px (count + (n + 1)) pixels)) :
    qoiLoop d out_len (List.replicate (n + 1) s.cur ++ pixels).length count px s =
      .ok (putPixels px count (List.replicate (n + 1) s.cur ++ pixels)) := by
  have long : (List.replicate (n + 1) s.cur ++ pixels).length = (n + pixels.length) + 1 := by
    rw [List.length_append, List.length_replicate, Nat.add_right_comm]
  rw [long] at room ⊢
  have next := qoiNext_chunk idle ahead (qoiOp_run n)
  have here : count * 4 + 4 ≤ out_len := by omega
  obtain ⟨px_prev, round⟩ := qoiLoop_next (n + pixels.length) count px next here
  have within : (count + 1 + n) * 4 ≤ out_len := by omega
  obtain ⟨px_prev', others⟩ := qoiLoop_run
    (s := { s with run := n, p := s.p + 1, index := remember s.index s.cur, px_prev := px_prev })
    d pixels.length n (count + 1) (putPixel px count s.cur) rfl within
  have places : count + 1 + n = count + (n + 1) := by omega
  rw [places] at others
  rw [round, putPixels_append, List.length_replicate]
  exact others.trans (later _ _ rfl rfl rfl rfl)

/-- The decoder reads any choice of chunks. -/
theorem qoiLoop_chunks {prev : Pixel} {seen : Nat → Pixel} {pixels : List Pixel} {bytes : List UInt8}
    (px : Nat → UInt8) (chunks : Chunks prev seen pixels bytes) (idle : s.run = 0) (cur : s.cur = prev)
    (index : s.index = seen)
    (ahead : d.drop s.p = bytes ++ tail) (room : (count + pixels.length) * 4 ≤ out_len) :
    qoiLoop d out_len pixels.length count px s = .ok (putPixels px count pixels) := by
  induction chunks generalizing s count px with
  | done => rfl
  | @run prev seen pixels bytes n rest ih =>
      subst index cur
      refine qoiLoop_runByte n idle ahead room fun s' px' idle' cur' index' place => ?_
      rw [List.length_append, List.length_replicate, ← Nat.add_assoc] at room
      exact ih px' idle' cur' index' (place ▸ (read_drop ahead).2.1) room
  | @index prev seen pixels bytes i rest ih =>
      subst index
      refine qoiLoop_chunk idle ahead (qoiOp_index i) room fun s' px' idle' cur' index' place => ?_
      exact ih px' idle' cur' index' (place ▸ (read_drop ahead).2.1) (by rw [List.length_cons] at room; omega)
  | @diff prev c seen pixels bytes dr dg db moved rest ih =>
      subst index cur moved
      refine qoiLoop_chunk idle ahead (qoiOp_diff dr dg db) room fun s' px' idle' cur' index' place => ?_
      exact ih px' idle' cur' index' (place ▸ (read_drop ahead).2.1) (by rw [List.length_cons] at room; omega)
  | @luma prev c seen pixels bytes dg dr db moved rest ih =>
      subst index cur moved
      have second := (read_drop ahead).2.1
      refine qoiLoop_chunk idle ahead (qoiOp_luma dg dr db second) room fun s' px' idle' cur' index' place => ?_
      exact ih px' idle' cur' index' (place ▸ (read_drop second).2.1) (by rw [List.length_cons] at room; omega)
  | @rgb prev c seen pixels bytes same rest ih =>
      subst index cur
      have behind := (read_drop ahead).2.1
      have op := qoiOp_rgb (s := { s with p := s.p + 1 }) behind
      have colours : (⟨c.r, c.g, c.b, s.cur.a⟩ : Pixel) = c := by rw [← same]
      rw [colours] at op
      refine qoiLoop_chunk idle ahead op room fun s' px' idle' cur' index' place => ?_
      have last := (read_drop (read_drop (read_drop behind).2.1).2.1).2.1
      exact ih px' idle' cur' index' (place ▸ last) (by rw [List.length_cons] at room; omega)
  | @rgba prev c seen pixels bytes rest ih =>
      subst index cur
      have behind := (read_drop ahead).2.1
      refine qoiLoop_chunk idle ahead (qoiOp_rgba behind) room fun s' px' idle' cur' index' place => ?_
      have last := (read_drop (read_drop (read_drop (read_drop behind).2.1).2.1).2.1).2.1
      exact ih px' idle' cur' index' (place ▸ last) (by rw [List.length_cons] at room; omega)

end loop

end Systrix.Image
